/-
Module: RfPirate.Proofs.MenuCursor
Layer: Proofs
Purpose: The cursor of a menu under `KEY_UP` and `KEY_DOWN`. It is kept in seven bits, while the
  entries are counted in eight, so in a menu of more than 128 entries it falls from entry 127 back
  to entry 0.
Main exports: AtEntry, downFrom, Fresh, EveryEntryReached, SevenBits, CursorLaw, CursorOk,
  menu_cursor
-/
import RfPirate.Proofs.MenuPath

namespace RfPirate

open Lib Lib.Machine

section Cursor

variable {σ : Type*} {P : Program σ} {fuel : Nat} {w w' : World σ} {offers : List Offer} {n c : Nat}

/-! ### Entry by entry -/

/-- The menu shown has `n` entries, counted and without an open dropdown, with the cursor on entry
    `c`. -/
structure AtEntry (P : Program σ) (n c : Nat) (w : World σ) : Prop where
  cur_eq : w.menu.cur = w.menu.stackIdx
  menu : IsMenu P.menus w.cur.menu n
  count : w.cur.numEntries = n
  cursor : w.cur.selected = c
  header : (header P w).isSome
  closed : ∀ i < n, (P.menus w.cur.menu i).isDropdown = true → w.opened w.cur.menu i = false

/-- Where `KEY_DOWN` moves the cursor. -/
def downFrom (n c : Nat) : Nat := if c + 1 ≥ n then c else (c + 1) % 128

theorem downFrom_lt (hc : c < n) : downFrom n c < n := by
  unfold downFrom
  split
  · exact hc
  · exact Nat.lt_of_le_of_lt (Nat.mod_le _ _) (by omega)

/-- A write of the cursor. -/
theorem AtEntry.setSelected (h : AtEntry P n c w) (c' : Nat) :
    AtEntry P n (c' % 128) (w.setSelected c') := by
  have hcur : (w.setSelected c').cur = { w.cur with selected := c' % 128 } := cur_setCur w _
  refine ⟨h.cur_eq, ?_, ?_, ?_, ?_, ?_⟩
  · rw [hcur]
    exact h.menu
  · rw [hcur]
    exact h.count
  · rw [hcur]
  · rw [World.setSelected, header_setCur h.cur_eq]
    exact h.header
  · rw [hcur]
    exact h.closed

theorem AtEntry.keyDownCase (h : AtEntry P n c w) (hc : c < n) :
    AtEntry P n (downFrom n c) (keyDownCase P w) := by
  have hclosed : P.onDropdown w true = false := by
    rw [Program.onDropdown, Program.entry, h.cursor]
    cases hdrop : (P.menus w.cur.menu c).isDropdown with
    | false => rfl
    | true => rw [h.closed c hc hdrop]; rfl
  unfold RfPirate.keyDownCase downFrom
  rw [hclosed, h.cursor, h.count]
  simp only [Bool.false_eq_true, if_false]
  split
  · exact h
  · exact h.setSelected (c + 1)

/-- Drawing a counted menu changes nothing of it. -/
theorem AtEntry.draw (h : AtEntry P n c w) (hc : c < n) (hn : n < 256) :
    ∃ w', drawMenu P w = some w' ∧ AtEntry P n c w' := by
  have htotal : (drawMenu P w).isSome :=
    drawMenu_total h.cur_eq h.header h.menu hn (.inr h.count) (by rw [h.cursor]; omega)
  obtain ⟨w', hdraw⟩ := Option.isSome_iff_exists.mp htotal
  obtain ⟨cnt, oled, buf, hcnt, rfl⟩ := drawMenu_eq hdraw
  refine ⟨_, hdraw, ?_⟩
  have hcnt' : cnt = w.cur.numEntries :=
    (count_eq h.menu (.inr h.count) hcnt).trans h.count.symm
  have hsame : w.setCur { w.cur with numEntries := cnt } = w := by
    rw [hcnt', World.setCur, World.cur, Function.update_eq_self]
  rw [hsame]
  exact ⟨h.cur_eq, h.menu, h.count, h.cursor, h.header, h.closed⟩

theorem AtEntry.keyDown (h : AtEntry P n c w) (fuel : Nat) (hc : c < n) (hn : n < 256) :
    ∃ w', keyHandler P fuel w RfPirate.keyDown = some (w', []) ∧ AtEntry P n (downFrom n c) w' := by
  obtain ⟨w', hdraw, hat⟩ := (h.keyDownCase hc).draw (downFrom_lt hc) hn
  refine ⟨w', ?_, hat⟩
  have hcase : keyCase P fuel RfPirate.keyDown w = some (RfPirate.keyDownCase P w, []) := by
    simp [keyCase, RfPirate.keyDown, keyUp]
  rw [keyHandler_of_case hcase, hdraw]
  rfl

/-- A number of presses of `KEY_DOWN`. -/
theorem AtEntry.keyDowns (fuel : Nat) (hn : n < 256) (i : Nat) : ∀ {c : Nat} {w : World σ},
    AtEntry P n c w → c < n → ∃ w' offers,
      run (keyHandler P fuel) w (List.replicate i RfPirate.keyDown) = some (w', offers) ∧
      AtEntry P n ((downFrom n)^[i] c) w' := by
  induction i with
  | zero => exact fun h _ => ⟨_, _, rfl, h⟩
  | succ i ih =>
      intro c w h hc
      obtain ⟨w₁, hkey, h₁⟩ := h.keyDown fuel hc hn
      obtain ⟨w', offers, hrun, h'⟩ := ih h₁ (downFrom_lt hc)
      exact ⟨w', [] ++ offers, by rw [List.replicate_succ, run, hkey]; simp only [hrun], h'⟩

/-- The first 127 presses move the cursor on by one each. -/
theorem downFrom_iterate {i : Nat} (hi : i < n) (hbits : i < 128) : (downFrom n)^[i] 0 = i := by
  induction i with
  | zero => rfl
  | succ i ih =>
      rw [Function.iterate_succ_apply', ih (by omega) (by omega), downFrom, if_neg (by omega),
        Nat.mod_eq_of_lt hbits]

/-- The press after that takes it back to the first entry. -/
theorem downFrom_iterate_wrap (hn : 128 < n) : (downFrom n)^[128] 0 = 0 := by
  rw [Function.iterate_succ_apply', downFrom_iterate (by omega) (by omega), downFrom,
    if_neg (by omega)]

/-- The menu shown has `n` entries and no open dropdown, was just drawn, and has the cursor on entry
    0. -/
def Fresh (P : Program σ) (n : Nat) (w : World σ) : Prop :=
  ∃ w₀, w₀.menu.cur = w₀.menu.stackIdx ∧ IsMenu P.menus w₀.cur.menu n ∧
    (w₀.cur.numEntries = 0 ∨ w₀.cur.numEntries = n) ∧ w₀.cur.selected = 0 ∧
    (∀ i < n, (P.menus w₀.cur.menu i).isDropdown = true → w₀.opened w₀.cur.menu i = false) ∧
    drawMenu P w₀ = some w

/-- A menu that could be drawn has a header. -/
theorem header_of_drawMenu (hcur : w.menu.cur = w.menu.stackIdx) (h : drawMenu P w = some w') :
    (header P w).isSome := by
  obtain ⟨cnt, -, hshow⟩ := drawMenu_isSome_iff.mp (Option.isSome_of_eq_some h)
  have hheader := hshow.header
  rwa [header_setCur hcur] at hheader

theorem Fresh.atEntry (h : Fresh P n w) : AtEntry P n 0 w := by
  obtain ⟨w₀, hcur, hmenu, hcount, hcursor, hclosed, hdraw⟩ := h
  have hheader := header_of_drawMenu hcur hdraw
  obtain ⟨cnt, oled, buf, hcnt, rfl⟩ := drawMenu_eq hdraw
  obtain rfl : cnt = n := count_eq hmenu hcount hcnt
  have hlevel : (w₀.setCur { w₀.cur with numEntries := cnt }).cur =
      { w₀.cur with numEntries := cnt } := cur_setCur w₀ _
  refine ⟨hcur, ?_, ?_, ?_, ?_, ?_⟩
  · show IsMenu P.menus (w₀.setCur _).cur.menu cnt
    rw [hlevel]
    exact hmenu
  · show (w₀.setCur _).cur.numEntries = cnt
    rw [hlevel]
  · show (w₀.setCur _).cur.selected = 0
    rw [hlevel]
    exact hcursor
  · show (header P (w₀.setCur _)).isSome
    rw [header_setCur hcur]
    exact hheader
  · show ∀ i < cnt, (P.menus (w₀.setCur _).cur.menu i).isDropdown = true →
      w₀.opened (w₀.setCur _).cur.menu i = false
    rw [hlevel]
    exact hclosed

/-- Every entry is reached by as many presses as its index says. -/
def EveryEntryReached (P : Program σ) (fuel n : Nat) (w : World σ) : Prop :=
  ∀ i < n, ∃ w' offers, run (keyHandler P fuel) w (List.replicate i RfPirate.keyDown) =
    some (w', offers) ∧ w'.cur.selected = i

theorem everyEntryReached_iff (h : Fresh P n w) (hpos : 1 ≤ n) (hn : n ≤ 255) :
    EveryEntryReached P fuel n w ↔ n ≤ 128 := by
  have hruns : ∀ i, ∃ w' offers, run (keyHandler P fuel) w
      (List.replicate i RfPirate.keyDown) = some (w', offers) ∧
        AtEntry P n ((downFrom n)^[i] 0) w' :=
    fun i => AtEntry.keyDowns fuel (by omega) i h.atEntry hpos
  constructor
  · intro hreach
    by_contra hlong
    obtain ⟨w₁, offers₁, hrun₁, hat⟩ := hruns 128
    obtain ⟨w₂, offers₂, hrun₂, hcursor⟩ := hreach 128 (by omega)
    cases hrun₁.symm.trans hrun₂
    have hzero := hat.cursor
    rw [downFrom_iterate_wrap (by omega), hcursor] at hzero
    omega
  · intro hshort i hi
    obtain ⟨w', offers, hrun, hat⟩ := hruns i
    refine ⟨w', offers, hrun, ?_⟩
    rw [hat.cursor, downFrom_iterate hi (by omega)]

/-! ### Every key -/

/-- The cursors on the stack have seven bits. -/
def SevenBits (w : World σ) : Prop := ∀ k, (w.menu.stack k).selected < 128

/-- What callbacks and exec functions leave in the cursors has seven bits. -/
structure KeepsSevenBits (P : Program σ) : Prop where
  call : ∀ cb event data w, SevenBits w → SevenBits (P.call cb event data w).2
  exec : ∀ f w, SevenBits w → SevenBits (P.exec f w)

theorem SevenBits.cur (h : SevenBits w) : w.cur.selected < 128 := h _

/-- A write to a stack of 7-bit cursors. -/
theorem sevenBits_update {stack : Nat → MenuSave} (h : ∀ k, (stack k).selected < 128) (i : Nat)
    {s : MenuSave} (hs : s.selected < 128) (k : Nat) :
    (Function.update stack i s k).selected < 128 := by
  by_cases hk : k = i
  · rw [hk, Function.update_self]
    exact hs
  · rw [Function.update_of_ne hk]
    exact h k

theorem SevenBits.setCur (h : SevenBits w) {s : MenuSave} (hs : s.selected < 128) :
    SevenBits (w.setCur s) := fun k => sevenBits_update h _ hs k

theorem SevenBits.setSelected (h : SevenBits w) (n : Nat) : SevenBits (w.setSelected n) :=
  h.setCur (Nat.mod_lt _ (by decide))

theorem SevenBits.pushMenu (h : SevenBits w) (next : MenuPtr) : SevenBits (pushMenu next w) := by
  intro k
  -- the level left is saved, then the level entered is set up
  refine sevenBits_update (fun k => sevenBits_update h _ ?_ k) _ ?_ k
  · exact h.cur
  · exact Nat.succ_pos 127

theorem SevenBits.syncevent (hbits : KeepsSevenBits P) (h : SevenBits w) {event : UInt8}
    {data : UInt16} (hsync : evtHandlerSyncevent P.callbacks event data fuel w =
      some (w', offers)) : SevenBits w' :=
  syncevent_keeps (fun cb w₁ h₁ => hbits.call cb event data w₁ h₁) hsync h

theorem SevenBits.draw (h : SevenBits w) (hdraw : drawMenu P w = some w') : SevenBits w' := by
  obtain ⟨cnt, oled, buf, -, rfl⟩ := drawMenu_eq hdraw
  have hset : SevenBits (w.setCur { w.cur with numEntries := cnt }) := h.setCur h.cur
  exact hset

theorem SevenBits.keyLeftCase (hbits : KeepsSevenBits P) (h : SevenBits w)
    (hkey : keyLeftCase P fuel w = some (w', offers)) : SevenBits w' := by
  have hpop : SevenBits (popMenu w) := h
  cases keyLeftCase_effect hkey with
  | close _ eq =>
      subst eq
      exact h
  | root _ _ eq =>
      subst eq
      exact h
  | leave _ _ _ eq =>
      subst eq
      exact hpop
  | leaveApp _ _ _ stop eq =>
      subst eq
      have hstop : SevenBits (stopApp w) := hpop.setCur hpop.cur
      have hafter := hstop.syncevent hbits stop
      exact hafter

theorem SevenBits.keyRightCase (hbits : KeepsSevenBits P) (h : SevenBits w)
    (hkey : keyRightCase P fuel w = some (w', offers)) : SevenBits w' := by
  cases keyRightCase_effect hkey with
  | openDrop _ eq =>
      subst eq
      exact h
  | enter _ eq =>
      subst eq
      exact h.pushMenu _
  | @enterApp _ _ _ cb _ _ _ start _ eq =>
      subst eq
      have hstart : SevenBits (startApp cb w) := h.setCur h.cur
      exact (hstart.syncevent hbits start).pushMenu _
  | nothing _ eq =>
      subst eq
      exact h

theorem SevenBits.keyEffect (hbits : KeepsSevenBits P) (h : SevenBits w) {k : UInt8}
    (hkey : KeyEffect P fuel w w' k offers) : SevenBits w' := by
  cases hkey with
  | up eq =>
      subst eq
      unfold keyUpCase
      split
      · exact h
      · exact h.setSelected _
  | down eq =>
      subst eq
      unfold RfPirate.keyDownCase
      split
      · exact h
      · split
        · exact h
        · exact h.setSelected _
  | left case => exact h.keyLeftCase hbits case
  | right case => exact h.keyRightCase hbits case
  | select eq =>
      subst eq
      unfold keySelectCase
      split
      · exact hbits.exec _ _ h
      · exact h
  | other _ _ _ _ eq =>
      subst eq
      exact h

theorem SevenBits.keyHandler (hbits : KeepsSevenBits P) (h : SevenBits w) {k : UInt8}
    (hkey : keyHandler P fuel w k = some (w', offers)) : SevenBits w' := by
  obtain ⟨w₁, heffect, hdraw⟩ := keyHandler_effect hkey
  exact (h.keyEffect hbits heffect).draw hdraw

/-- `KEY_DOWN` does not move the cursor backwards, nor `KEY_UP` forwards. -/
def CursorLaw (P : Program σ) (fuel : Nat) (w : World σ) (k : UInt8) : Prop :=
  After (keyHandler P fuel) (fun w' =>
    (k = RfPirate.keyDown → w.cur.selected ≤ w'.cur.selected) ∧
    (k = keyUp → w'.cur.selected ≤ w.cur.selected)) w k

/-- `KEY_DOWN` is not pressed on entry 127 of a menu of more than 128 entries, unless an open
    dropdown takes it. -/
def CursorOk (P : Program σ) (w : World σ) (k : UInt8) : Prop :=
  k = RfPirate.keyDown → P.onDropdown w true = false → w.cur.selected = 127 →
    w.cur.numEntries ≤ 128
deriving Decidable

theorem drawMenu_selected (h : drawMenu P w = some w') : w'.cur.selected = w.cur.selected :=
  congrArg Prod.snd (drawMenu_keeps h).level

/-- Where the two keys leave the cursor. -/
theorem keyHandler_selected {k : UInt8} (h : keyHandler P fuel w k = some (w', offers)) :
    (k = RfPirate.keyDown → w'.cur.selected = (RfPirate.keyDownCase P w).cur.selected) ∧
    (k = keyUp → w'.cur.selected = (keyUpCase P w).cur.selected) := by
  obtain ⟨w₁, heffect, hdraw⟩ := keyHandler_effect h
  rw [drawMenu_selected hdraw]
  cases heffect with
  | up eq =>
      subst eq
      exact ⟨fun hk => absurd hk (by decide), fun _ => rfl⟩
  | down eq =>
      subst eq
      exact ⟨fun _ => rfl, fun hk => absurd hk (by decide)⟩
  | left _ => exact ⟨fun hk => absurd hk (by decide), fun hk => absurd hk (by decide)⟩
  | right _ => exact ⟨fun hk => absurd hk (by decide), fun hk => absurd hk (by decide)⟩
  | select _ => exact ⟨fun hk => absurd hk (by decide), fun hk => absurd hk (by decide)⟩
  | other hup hdown _ _ _ => exact ⟨fun hk => absurd hk hdown, fun hk => absurd hk hup⟩

theorem keyUpCase_le (h : SevenBits w) : (keyUpCase P w).cur.selected ≤ w.cur.selected := by
  unfold keyUpCase
  split
  · exact Nat.le_refl _
  · rw [World.setSelected, cur_setCur]
    have := h.cur
    show (w.cur.selected - 1) % 128 ≤ w.cur.selected
    omega

/-- The cursor falls back from entry 127 only. -/
theorem le_keyDownCase_iff (h : SevenBits w) :
    w.cur.selected ≤ (RfPirate.keyDownCase P w).cur.selected ↔
      (P.onDropdown w true = false → w.cur.selected = 127 → w.cur.numEntries ≤ 128) := by
  have hcursor := h.cur
  unfold RfPirate.keyDownCase
  split
  · rename_i hopen
    exact ⟨fun _ hclosed => absurd (hopen.symm.trans hclosed) (by decide), fun _ => Nat.le_refl _⟩
  · rename_i hclosed
    simp only [Bool.not_eq_true] at hclosed
    split
    · exact ⟨fun _ _ _ => by omega, fun _ => Nat.le_refl _⟩
    · rw [World.setSelected, cur_setCur]
      show w.cur.selected ≤ (w.cur.selected + 1) % 128 ↔ _
      simp only [hclosed, true_implies]
      omega

theorem cursorLaw_of_ok (h : SevenBits w) {k : UInt8} (hok : CursorOk P w k) :
    CursorLaw P fuel w k := by
  intro w' offers hkey
  obtain ⟨hdown, hup⟩ := keyHandler_selected hkey
  constructor
  · intro hk
    rw [hdown hk]
    exact (le_keyDownCase_iff h).mpr (hok hk)
  · intro hk
    rw [hup hk]
    exact keyUpCase_le h

theorem cursorOk_of_law (h : SevenBits w) {k : UInt8}
    (hreturns : (keyHandler P fuel w k).isSome) (hlaw : CursorLaw P fuel w k) :
    CursorOk P w k := by
  intro hk
  obtain ⟨⟨w', offers⟩, hkey⟩ := Option.isSome_iff_exists.mp hreturns
  have hle := (hlaw w' offers hkey).1 hk
  rw [(keyHandler_selected hkey).1 hk] at hle
  exact (le_keyDownCase_iff h).mp hle

/-- From a freshly drawn menu of up to 255 entries, each entry is reached exactly if there are at
    most 128. In every run of keys without a `KEY_DOWN` on entry 127 of a longer menu the keys move
    the cursor their way; a run that goes to its end obeys the law in no other case. -/
theorem menu_cursor (P : Program σ) (hbits : KeepsSevenBits P) (fuel : Nat) :
    (∀ n w, Fresh P n w → 1 ≤ n → n ≤ 255 → (EveryEntryReached P fuel n w ↔ n ≤ 128)) ∧
    ∀ w keys, SevenBits w →
      (Guarded (keyHandler P fuel) (CursorOk P) w keys →
        Guarded (keyHandler P fuel) (CursorLaw P fuel) w keys) ∧
      ((run (keyHandler P fuel) w keys).isSome →
        (Guarded (keyHandler P fuel) (CursorLaw P fuel) w keys ↔
          Guarded (keyHandler P fuel) (CursorOk P) w keys)) := by
  refine ⟨fun n w h hpos hn => everyEntryReached_iff h hpos hn, fun w keys h => ?_⟩
  refine guarded_iff_of_run ?_ ?_ ?_ h keys
  · exact fun w k h hok => cursorLaw_of_ok h hok
  · exact fun w k h hreturns hlaw => cursorOk_of_law h hreturns hlaw
  · exact fun w k w' offers h _ hkey => h.keyHandler hbits hkey

end Cursor

/-- A menu of `n` entries that do nothing. -/
def longMenu (n : Nat) : Program Unit :=
  { nestedApps with
    menus := fun _ i => if i < n then .dummy (some letterA) else .dummy none }

theorem longMenu_isMenu (n : Nat) (menu : MenuPtr) : IsMenu (longMenu n).menus menu n := by
  refine ⟨fun i hi => ?_, if_neg (Nat.lt_irrefl n)⟩
  simp [longMenu, hi, MenuEntry.text]

theorem longMenu_fresh {n : Nat} (hn : n < 256) : ∃ w, Fresh (longMenu n) n w := by
  have hdraw : (drawMenu (longMenu n) nestedAppsWorld).isSome :=
    drawMenu_total rfl rfl (longMenu_isMenu n _) hn (.inl rfl) (by
      show 0 < max n 1
      omega)
  obtain ⟨w, hw⟩ := Option.isSome_iff_exists.mp hdraw
  refine ⟨w, nestedAppsWorld, rfl, longMenu_isMenu n _, .inl rfl, rfl, fun _ _ _ => rfl, hw⟩

theorem longMenu_keepsSevenBits (n : Nat) : KeepsSevenBits (longMenu n) :=
  ⟨fun _ _ _ _ h => h, fun _ _ h => h⟩

theorem nestedAppsWorld_sevenBits : SevenBits nestedAppsWorld :=
  fun k => sevenBits_update (fun _ => Nat.succ_pos 127) 0 (Nat.succ_pos 127) k

/-- A menu of two entries. -/
theorem menu_cursor_two_entries :
    (∃ w, Fresh (longMenu 2) 2 w ∧ EveryEntryReached (longMenu 2) 3 2 w) ∧
    Guarded (keyHandler (longMenu 2) 3) (CursorLaw (longMenu 2) 3) nestedAppsWorld
      [keyDown, keyRight, keyDown, keyUp] := by
  have hlaw := menu_cursor (longMenu 2) (longMenu_keepsSevenBits 2) 3
  obtain ⟨w, hfresh⟩ := longMenu_fresh (n := 2) (by decide)
  exact ⟨⟨w, hfresh, (hlaw.1 2 w hfresh (by decide) (by decide)).mpr (by decide)⟩,
    (hlaw.2 nestedAppsWorld _ nestedAppsWorld_sevenBits).1 (by decide +kernel)⟩

/-- In a menu of 129 entries the press of `KEY_DOWN` on entry 127 moves the cursor to entry 0, and
    entry 128 is not reached. -/
theorem menu_cursor_fails :
    ∃ w, Fresh (longMenu 129) 129 w ∧ ¬ EveryEntryReached (longMenu 129) 3 129 w ∧
      ∃ w₁ offers, run (keyHandler (longMenu 129) 3) w (List.replicate 127 keyDown) =
          some (w₁, offers) ∧
        w₁.cur.selected = 127 ∧ ¬ CursorLaw (longMenu 129) 3 w₁ keyDown := by
  obtain ⟨w, hfresh⟩ := longMenu_fresh (n := 129) (by decide)
  obtain ⟨w₁, offers, hrun, hat⟩ :=
    AtEntry.keyDowns 3 (by decide) 127 hfresh.atEntry (by decide)
  rw [downFrom_iterate (by decide) (by decide)] at hat
  refine ⟨w, hfresh, ?_, w₁, offers, hrun, hat.cursor, fun hlaw => ?_⟩
  · rw [everyEntryReached_iff hfresh (by decide) (by decide)]
    decide
  · obtain ⟨w₂, hkey, hat₂⟩ := hat.keyDown 3 (by decide) (by decide)
    have hback := (hlaw w₂ [] hkey).1 rfl
    rw [hat.cursor, hat₂.cursor] at hback
    exact absurd hback (by decide)

end RfPirate
