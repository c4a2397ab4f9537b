/-
Module: RfPirate.Proofs.MenuDraw
Layer: Proofs
Purpose: When `DrawMenu` returns, and what it writes in the menu object. It reads the texts of the
  header and of the entries in the window, so it returns where none of them is NULL; an open
  dropdown shows its value and needs no text.
Main exports: drawMenu_eq, windowTop, Showable, drawMenu_isSome_iff, drawMenu_isSome_mono,
  drawMenu_again
-/
import RfPirate.Core.Menu

namespace RfPirate

section Draw

variable {σ : Type*} {P : Program σ} {w w' : World σ}

/-! ### What drawing writes -/

theorem cur_setCur (w : World σ) (s : MenuSave) : (w.setCur s).cur = s :=
  Function.update_self _ _ _

/-- Drawing writes the count of entries, the display and the scratch buffer. -/
theorem drawMenu_eq (h : drawMenu P w = some w') :
    ∃ cnt oled buf,
      (if w.cur.numEntries = 0 then countEntries P w.cur.menu else some w.cur.numEntries) =
        some cnt ∧
      w' = { w.setCur { w.cur with numEntries := cnt } with oled := oled, buf := buf } := by
  unfold drawMenu at h
  split at h
  · simp at h
  · rename_i cnt hcnt
    simp only at h
    split at h
    · simp at h
    · rename_i oled buf _
      exact ⟨cnt, oled, buf, hcnt, (Option.some.inj h).symm⟩

/-- A write to the current level does not change the header, which is in the level below. -/
theorem header_setCur (hcur : w.menu.cur = w.menu.stackIdx) (s : MenuSave) :
    header P (w.setCur s) = header P w := by
  have hidx' : (w.setCur s).menu.stackIdx = w.menu.stackIdx := rfl
  unfold header
  rw [hidx']
  split
  · rfl
  · have hbelow : (w.setCur s).menu.stack (w.menu.stackIdx - 1) =
        w.menu.stack (w.menu.stackIdx - 1) :=
      Function.update_of_ne (by omega) _ _
    simp only [hbelow]

/-- What `DrawVisible` does before the loop. -/
def drawHeader (d : Ssd1306) (text : List UInt8) : Ssd1306 :=
  let d := clearline d 0
  let d := drawstring d 0 0 [91] false
  let d := drawstring d 0 1 text false
  drawstring d 0 ((text.length + 1) % 256) [93] false

/-- What `DrawVisible` does behind the loop. -/
def drawArrows (w : World σ) (itemsAbove itemsBelow : Bool) (d : Ssd1306) : Ssd1306 :=
  let d := if itemsAbove then drawstring d w.menu.lineStart 20 upIcon false else d
  if itemsBelow then drawstring d w.menu.lineEnd 20 downIcon false else d

/-- `DrawVisible` is the loop between the header and the arrows. -/
theorem drawVisible_eq {text : List UInt8} (htext : header P w = some text) {top selected : Nat}
    {itemsAbove itemsBelow : Bool} :
    drawVisible P w top selected itemsAbove itemsBelow =
      (drawEntries P w top selected w.menu.visibleLines 0 (drawHeader w.oled text) w.buf).map
        fun r => (drawArrows w itemsAbove itemsBelow r.1, r.2) := by
  rw [drawVisible, htext, drawHeader]
  simp only
  split
  · rename_i hnone
    rw [hnone]
    rfl
  · rename_i hsome
    rw [hsome]
    rfl

/-! ### When a menu can be drawn -/

/-- Line `i` of the window from `top` on has a text, where there is an entry for it. -/
def LineShowable (P : Program σ) (w : World σ) (top i : Nat) : Prop :=
  i < w.cur.numEntries →
    ((P.menus w.cur.menu (top + i)).isDropdown && w.opened w.cur.menu (top + i)) = true ∨
      (P.menus w.cur.menu (top + i)).text ≠ none

theorem drawEntry_isSome_iff {top i : Nat} (selected : Nat) (d : Ssd1306) (buf : Nat → UInt8) :
    (drawEntry P w top selected i d buf).isSome ↔ LineShowable P w top i := by
  simp only [drawEntry, LineShowable]
  by_cases hi : i ≥ w.cur.numEntries
  · rw [if_pos hi]
    exact iff_of_true rfl fun hlt => absurd hlt (Nat.not_lt.mpr hi)
  · have hlt : i < w.cur.numEntries := Nat.lt_of_not_ge hi
    rw [if_neg hi]
    cases hopen : (P.menus w.cur.menu (top + i)).isDropdown && w.opened w.cur.menu (top + i) with
    | true => simp
    | false =>
        cases htext : (P.menus w.cur.menu (top + i)).text with
        | none => simp [hlt]
        | some text => simp

theorem drawEntries_isSome_iff {top selected : Nat} (n i : Nat) (d : Ssd1306) (buf : Nat → UInt8) :
    (drawEntries P w top selected n i d buf).isSome ↔
      ∀ j, i ≤ j → j < i + n → LineShowable P w top j := by
  induction n generalizing i d buf with
  | zero => exact iff_of_true rfl fun j hij hj => absurd hij (by omega)
  | succ n ih =>
      have hsplit : (∀ j, i ≤ j → j < i + (n + 1) → LineShowable P w top j) ↔
          LineShowable P w top i ∧ ∀ j, i + 1 ≤ j → j < i + 1 + n → LineShowable P w top j := by
        constructor
        · exact fun h => ⟨h i (Nat.le_refl i) (by omega), fun j hij hj => h j (by omega) (by omega)⟩
        · rintro ⟨hfirst, hrest⟩ j hij hj
          rcases Nat.lt_or_eq_of_le hij with hlt | rfl
          · exact hrest j hlt (by omega)
          · exact hfirst
      rw [hsplit, drawEntries, ← drawEntry_isSome_iff selected d buf]
      cases hentry : drawEntry P w top selected i d buf with
      | none => simp
      | some r => simp [ih (i + 1)]

/-- The first entry of the window. -/
def windowTop (w : World σ) : Nat :=
  if w.cur.selected + 1 > w.menu.visibleLines then
    (w.cur.selected + 1 - w.menu.visibleLines) % 256
  else 0

/-- The header and all lines of the window have a text. -/
structure Showable (P : Program σ) (w : World σ) : Prop where
  header : (header P w).isSome
  lines : ∀ i < w.menu.visibleLines, LineShowable P w (windowTop w) i

theorem drawVisible_isSome_iff {top selected : Nat} {itemsAbove itemsBelow : Bool} :
    (drawVisible P w top selected itemsAbove itemsBelow).isSome ↔
      (header P w).isSome ∧ ∀ i < w.menu.visibleLines, LineShowable P w top i := by
  cases hheader : header P w with
  | none => simp [drawVisible, hheader]
  | some text =>
      rw [drawVisible_eq hheader, Option.isSome_map, drawEntries_isSome_iff, Nat.zero_add]
      exact ⟨fun h => ⟨rfl, fun i hi => h i (Nat.zero_le i) hi⟩, fun h i _ hi => h.2 i hi⟩

theorem drawMenu_isSome_iff :
    (drawMenu P w).isSome ↔ ∃ cnt,
      (if w.cur.numEntries = 0 then countEntries P w.cur.menu else some w.cur.numEntries) =
        some cnt ∧ Showable P (w.setCur { w.cur with numEntries := cnt }) := by
  rw [drawMenu]
  split
  · rename_i hnone
    simp [hnone]
  · rename_i cnt hcnt
    have hvisible : ∀ selected itemsAbove itemsBelow,
        (drawVisible P (w.setCur { w.cur with numEntries := cnt })
          (windowTop (w.setCur { w.cur with numEntries := cnt })) selected itemsAbove
          itemsBelow).isSome ↔ Showable P (w.setCur { w.cur with numEntries := cnt }) := by
      intro selected itemsAbove itemsBelow
      rw [drawVisible_isSome_iff]
      exact ⟨fun h => ⟨h.1, h.2⟩, fun h => ⟨h.header, h.lines⟩⟩
    simp only [hcnt, Option.some.injEq, exists_eq_left']
    split
    · rename_i hnone
      exact iff_of_false nofun fun h =>
        (Option.isSome_iff_ne_none.mp ((hvisible _ _ _).mpr h)) hnone
    · rename_i oled buf hsome
      exact iff_of_true rfl ((hvisible _ _ _).mp (Option.isSome_of_eq_some hsome))

/-- What can be drawn depends on the menu and on the open dropdowns, which need no text. -/
theorem Showable.mono (h : Showable P w) (hmenu : w'.menu = w.menu)
    (hopened : ∀ menu i, w.opened menu i = true → w'.opened menu i = true) : Showable P w' := by
  have hcur : w'.cur = w.cur := by rw [World.cur, World.cur, hmenu]
  refine ⟨?_, fun i hi => ?_⟩
  · have hheader : RfPirate.header P w' = RfPirate.header P w := by
      rw [RfPirate.header, RfPirate.header, hmenu]
    rw [hheader]
    exact h.header
  · have htop : windowTop w' = windowTop w := by rw [windowTop, windowTop, hcur, hmenu]
    rw [htop, LineShowable, hcur]
    intro hlt
    rcases h.lines i (hmenu ▸ hi) hlt with hdrop | htext
    · rw [Bool.and_eq_true] at hdrop ⊢
      exact .inl ⟨hdrop.1, hopened _ _ hdrop.2⟩
    · exact .inr htext

theorem drawMenu_isSome_mono (h : (drawMenu P w).isSome) (hmenu : w'.menu = w.menu)
    (hopened : ∀ menu i, w.opened menu i = true → w'.opened menu i = true) :
    (drawMenu P w').isSome := by
  have hcur : w'.cur = w.cur := by rw [World.cur, World.cur, hmenu]
  obtain ⟨cnt, hcnt, hshown⟩ := drawMenu_isSome_iff.mp h
  refine drawMenu_isSome_iff.mpr ⟨cnt, by rw [hcur]; exact hcnt, hshown.mono ?_ hopened⟩
  rw [hcur, World.setCur, World.setCur, hmenu]

/-- What has been drawn can be drawn again. -/
theorem drawMenu_again (h : drawMenu P w = some w') : (drawMenu P w').isSome := by
  obtain ⟨cnt, hcnt, hshown⟩ := drawMenu_isSome_iff.mp (Option.isSome_of_eq_some h)
  obtain ⟨cnt', oled, buf, hcnt', rfl⟩ := drawMenu_eq h
  obtain rfl : cnt' = cnt := Option.some.inj (hcnt'.symm.trans hcnt)
  have hcur : ({ w.setCur { w.cur with numEntries := cnt' } with oled := oled, buf := buf } :
      World σ).cur = { w.cur with numEntries := cnt' } := cur_setCur w _
  refine drawMenu_isSome_iff.mpr ⟨cnt', ?_, hshown.mono ?_ fun _ _ h => h⟩
  · rw [hcur]
    by_cases hzero : cnt' = 0
    · -- a count of 0 is counted again
      have hold : w.cur.numEntries = 0 := by
        by_contra hne
        rw [if_neg hne] at hcnt
        exact hne ((Option.some.inj hcnt).trans hzero)
      rw [if_pos hold] at hcnt
      rw [if_pos hzero]
      exact hcnt
    · rw [if_neg hzero]
  · rw [hcur]
    simp only [World.setCur, Function.update_idem]

end Draw

end RfPirate
