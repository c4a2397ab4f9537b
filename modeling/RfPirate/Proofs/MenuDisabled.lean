/-
Module: RfPirate.Proofs.MenuDisabled
Layer: Proofs
Purpose: What `DrawMenu` writes into the lines of a disabled menu. Without visible lines there is
  nothing to scroll, but the first entry of the window is then the one behind the cursor, so there
  are always entries above it, and an arrow in the first line; and one in the last line unless the
  cursor is on the last entry.
Main exports: entryCount, InBody, SameBody, arrowOf, drawMenu_disabled, menuCalls, DisabledLaw,
  DisabledOk, menu_disabled
-/
import RfPirate.Proofs.MenuCursor
import RfPirate.Proofs.MenuScreen

namespace RfPirate

open Lib Lib.Machine

section Disabled

variable {σ : Type*} {P : Program σ} {fuel n : Nat} {w w' : World σ} {offers : List Offer}

/-! ### One call of `DrawMenu` -/

/-- The number of entries that `DrawMenu` goes by. -/
def entryCount (P : Program σ) (w : World σ) : Option Nat :=
  if w.cur.numEntries = 0 then countEntries P w.cur.menu else some w.cur.numEntries

/-- Line `l` of the display is one of the lines of the menu, below the header. -/
def InBody (w : World σ) (l : Nat) : Prop :=
  1 ≤ l ∧ w.menu.lineStart ≤ l ∧ l ≤ w.menu.lineEnd
deriving Decidable

/-- No character and no invert bit of the lines of the menu has changed. -/
def SameBody (w w' : World σ) : Prop :=
  ∀ l < lcdCharLines, InBody w l → SameLine w.oled w'.oled l

/-- `Menu::Enable(0)` was the last call of `Enable`. -/
def Disabled (w : World σ) : Prop := w.menu.visibleLines = 0
deriving Decidable

/-- The arrow a disabled menu of `n` entries has in a line. The one down is drawn last. -/
def arrowOf (n : Nat) (w : World σ) (l : Nat) : Option UInt8 :=
  if l = w.menu.lineEnd ∧ w.cur.selected + 1 < n then some 2
  else if l = w.menu.lineStart then some 1
  else none

/-- The last column of the lines of the menu has these arrows already. -/
def ArrowsThere (P : Program σ) (w : World σ) : Prop :=
  ∀ n ∈ entryCount P w, ∀ l < lcdCharLines, InBody w l → ∀ c ∈ arrowOf n w l,
    w.oled.buf (cell l 20) = c

instance ArrowsThere.decidable (w : World σ) : Decidable (ArrowsThere P w) :=
  decidable_of_iff (∀ n ∈ entryCount P w, ∀ l ∈ List.range lcdCharLines, InBody w l →
      (arrowOf n w l).all fun c => w.oled.buf (cell l 20) = c) <| by
    simp only [List.mem_range, Option.all_eq_true, decide_eq_true_eq]
    exact Iff.rfl

/-- Without visible lines, the header and the arrows are all that is drawn. -/
theorem drawVisible_disabled (hoff : Disabled w) {top selected : Nat} {itemsAbove itemsBelow : Bool}
    {oled : Ssd1306} {buf : Nat → UInt8}
    (h : drawVisible P w top selected itemsAbove itemsBelow = some (oled, buf)) :
    ∃ text, oled = drawArrows w itemsAbove itemsBelow (drawHeader w.oled text) := by
  cases hheader : header P w with
  | none => simp [drawVisible, hheader] at h
  | some text =>
      have hlines : w.menu.visibleLines = 0 := hoff
      rw [drawVisible_eq hheader, hlines, drawEntries] at h
      exact ⟨text, (congrArg Prod.fst (Option.some.inj h)).symm⟩

/-- The first entry of the window is the one behind the cursor. -/
theorem drawMenu_disabled (hbits : w.cur.selected < 128) (hoff : Disabled w)
    (h : drawMenu P w = some w') :
    ∃ n text, entryCount P w = some n ∧
      w'.oled = drawArrows w true (w.cur.selected + 1 < n) (drawHeader w.oled text) := by
  have hlines : w.menu.visibleLines = 0 := hoff
  have htop : (w.cur.selected + 1) % 256 = w.cur.selected + 1 := Nat.mod_eq_of_lt (by omega)
  rw [drawMenu] at h
  split at h
  · simp at h
  · rename_i n hcount
    simp only at h
    split at h
    · simp at h
    · rename_i oled buf hvisible
      have hoff' : Disabled (w.setCur { w.cur with numEntries := n }) := hoff
      obtain ⟨text, htext⟩ := drawVisible_disabled hoff' hvisible
      refine ⟨n, text, hcount, ?_⟩
      rw [← Option.some.inj h]
      simp only [cur_counted, visibleLines_setCur, hlines, gt_iff_lt, Nat.succ_pos, if_true,
        Nat.sub_zero, htop, Nat.not_lt_zero, if_false, Nat.add_zero, decide_true] at htext
      exact htext

/-- A disabled menu puts its arrows into the lines of the menu, and changes nothing else there. -/
theorem disabled_body (hbits : w.cur.selected < 128) (hoff : Disabled w)
    (h : drawMenu P w = some w') (hcount : n ∈ entryCount P w) {l y : Nat} (hl : l < lcdCharLines)
    (hbody : InBody w l) (hy : y < lcdCharPerLine) :
    w'.oled.buf (cell l y) =
        (if y = 20 then (arrowOf n w l).getD (w.oled.buf (cell l y)) else w.oled.buf (cell l y)) ∧
      invBit w'.oled l y = invBit w.oled l y := by
  obtain ⟨n', text, hcount', holed⟩ := drawMenu_disabled hbits hoff h
  obtain rfl : n' = n := Option.some.inj (hcount'.symm.trans hcount)
  have hsame := drawHeader_same w.oled text hl (Nat.one_le_iff_ne_zero.mp hbody.1)
  rw [holed, drawArrows, downIcon, upIcon]
  refine ⟨?_, ?_⟩
  · rw [drawArrow_cell _ hy, drawArrow_cell _ hy, hsame.chars y hy, arrowOf]
    by_cases hcol : y = 20
    · simp only [hcol, true_and, and_true, if_true, decide_eq_true_eq]
      split
      · rfl
      · split <;> rfl
    · simp only [hcol, false_and, if_false]
  · rw [drawArrow_invBit, drawArrow_invBit]
    exact hsame.mask y hy

/-- So the lines of the menu stay as they are if and only if they have the arrows already. -/
theorem sameBody_iff (hbits : w.cur.selected < 128) (hoff : Disabled w)
    (h : drawMenu P w = some w') : SameBody w w' ↔ ArrowsThere P w := by
  have hcol : 20 < lcdCharPerLine := by decide
  constructor
  · intro hsame n hcount l hl hbody c hc
    have hcell := (disabled_body hbits hoff h hcount hl hbody hcol).1
    rw [if_pos rfl, hc, (hsame l hl hbody).chars 20 hcol] at hcell
    exact hcell
  · intro hthere l hl hbody
    obtain ⟨n, -, hcount, -⟩ := drawMenu_disabled hbits hoff h
    refine ⟨fun y hy => ?_, fun y hy => (disabled_body hbits hoff h hcount hl hbody hy).2⟩
    rw [(disabled_body hbits hoff h hcount hl hbody hy).1]
    split
    · rename_i hlast
      subst hlast
      cases hc : arrowOf n w l with
      | none => rfl
      | some c => exact (hthere n hcount l hl hbody c hc).symm
    · rfl

/-! ### Keys and calls of `Enable` -/

/-- A key press, or a call of `Menu::Enable`. -/
inductive MenuCall where
  | key (k : UInt8)
  | enable (b : Bool)
deriving DecidableEq

/-- The menu object under these calls. -/
def menuCalls (P : Program σ) (fuel : Nat) : Machine.Step (World σ) MenuCall Offer
  | w, .key k => keyHandler P fuel w k
  | w, .enable b => some (enable w b, [])

/-- What a call has to satisfy: where a key leaves the menu disabled, the `DrawMenu` that follows
    leaves the lines of the menu alone. -/
def DisabledLaw (P : Program σ) (fuel : Nat) (w : World σ) : MenuCall → Prop
  | .key k => ∀ r ∈ keyCase P fuel k w, Disabled r.1 → ∀ w' ∈ drawMenu P r.1, SameBody r.1 w'
  | .enable _ => True

/-- Where a key leaves the menu disabled, the arrows are there already. -/
def DisabledOk (P : Program σ) (fuel : Nat) (w : World σ) : MenuCall → Prop
  | .key k => ∀ r ∈ keyCase P fuel k w, Disabled r.1 → (drawMenu P r.1).isSome → ArrowsThere P r.1
  | .enable _ => True

instance DisabledOk.decidable (w : World σ) : ∀ call, Decidable (DisabledOk P fuel w call)
  | .key k => inferInstanceAs (Decidable (∀ r ∈ keyCase P fuel k w, Disabled r.1 →
      (drawMenu P r.1).isSome → ArrowsThere P r.1))
  | .enable _ => instDecidableTrue

theorem SevenBits.menuCalls (hbits : KeepsSevenBits P) (h : SevenBits w) {call : MenuCall}
    (hcall : menuCalls P fuel w call = some (w', offers)) : SevenBits w' := by
  cases call with
  | key k => exact h.keyHandler hbits hcall
  | enable b =>
      obtain rfl : enable w b = w' := congrArg Prod.fst (Option.some.inj hcall)
      exact h

theorem disabledLaw_iff (hbits : KeepsSevenBits P) (h : SevenBits w) (call : MenuCall) :
    DisabledLaw P fuel w call ↔ DisabledOk P fuel w call := by
  cases call with
  | enable b => exact Iff.rfl
  | key k =>
      have hcursor : ∀ r ∈ keyCase P fuel k w, r.1.cur.selected < 128 :=
        fun r hr => (h.keyEffect hbits (keyCase_effect hr)).cur
      constructor
      · intro hlaw r hr hoff hdraw
        obtain ⟨w', hw'⟩ := Option.isSome_iff_exists.mp hdraw
        exact (sameBody_iff (hcursor r hr) hoff hw').mp (hlaw r hr hoff w' hw')
      · intro hok r hr hoff w' hw'
        exact (sameBody_iff (hcursor r hr) hoff hw').mpr
          (hok r hr hoff (Option.isSome_of_eq_some hw'))

/-- Drawing a disabled menu leaves its lines alone if and only if the last column has the arrows
    already: the one up in the first line, and the one down in the last line, unless the cursor is
    on the last entry. In every run of keys and calls of `Enable` this decides for each key. -/
theorem menu_disabled (P : Program σ) (hbits : KeepsSevenBits P) (fuel : Nat) :
    (∀ w w', SevenBits w → Disabled w → drawMenu P w = some w' →
      (SameBody w w' ↔ ArrowsThere P w)) ∧
    ∀ w calls, SevenBits w →
      (Guarded (menuCalls P fuel) (DisabledLaw P fuel) w calls ↔
        Guarded (menuCalls P fuel) (DisabledOk P fuel) w calls) := by
  refine ⟨fun w w' h hoff hdraw => sameBody_iff h.cur hoff hdraw, fun w calls h => ?_⟩
  exact guarded_iff (fun w call h => disabledLaw_iff hbits h call)
    (fun w call w' offers h _ hcall => h.menuCalls hbits hcall) h

end Disabled

/-! ### An application that disables the menu -/

/-- On the start event the application disables the menu and fills line 1 of the display. -/
def screenApp : Program Unit :=
  { nestedApps with
    call := fun _ event _ w =>
      if event = eventAppStart then
        (1, { enable w false with oled := drawstring w.oled 1 0 (List.replicate 21 65) false })
      else (1, w) }

/-- Entering an application that draws nothing, with the arrow in its place. -/
theorem menu_disabled_arrow_there :
    Guarded (menuCalls nestedApps 3) (DisabledLaw nestedApps 3)
      { nestedAppsWorld with oled := drawstring .zero 1 20 upIcon false }
      [.enable false, .key keyUp, .key keyRight, .enable true] := by
  have hbits : KeepsSevenBits nestedApps := ⟨fun _ _ _ _ h => h, fun _ _ h => h⟩
  have hruns := (menu_disabled nestedApps hbits 3).2
    { nestedAppsWorld with oled := drawstring .zero 1 20 upIcon false }
    [.enable false, .key keyUp, .key keyRight, .enable true] nestedAppsWorld_sevenBits
  exact hruns.mpr (by decide +kernel)

/-- The last character of line 1 that the application has drawn is overwritten by the arrow. -/
theorem menu_disabled_fails :
    ∃ w₁ offers w', keyCase screenApp 3 keyRight nestedAppsWorld = some (w₁, offers) ∧
      Disabled w₁ ∧ drawMenu screenApp w₁ = some w' ∧ w₁.oled.buf (cell 1 20) = 65 ∧
      w'.oled.buf (cell 1 20) = 1 ∧ ¬ SameBody w₁ w' ∧
      ¬ Guarded (menuCalls screenApp 3) (DisabledLaw screenApp 3) nestedAppsWorld
        [.key keyRight] := by
  have hrun : ((keyCase screenApp 3 keyRight nestedAppsWorld).bind fun r =>
      (drawMenu screenApp r.1).map fun w' =>
        (decide (Disabled r.1 ∧ InBody r.1 1), r.1.oled.buf (cell 1 20), w'.oled.buf (cell 1 20))) =
      some (true, 65, 1) := by
    decide +kernel
  obtain ⟨⟨w₁, offers⟩, hcase, hrest⟩ := Option.bind_eq_some_iff.mp hrun
  obtain ⟨w', hdraw, hcells⟩ := Option.map_eq_some_iff.mp hrest
  simp only [Prod.mk.injEq, decide_eq_true_eq] at hcells
  obtain ⟨⟨hoff, hbody⟩, hbefore, hafter⟩ := hcells
  have hchanged : ¬ SameBody w₁ w' := by
    intro hsame
    have hcell := (hsame 1 (by decide) hbody).chars 20 (by decide)
    rw [hbefore, hafter] at hcell
    exact absurd hcell (by decide)
  exact ⟨w₁, offers, w', hcase, hoff, hdraw, hbefore, hafter, hchanged,
    fun hlaw => hchanged (hlaw.1 (w₁, offers) hcase hoff w' hdraw)⟩

end RfPirate
