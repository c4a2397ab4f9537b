/-
Module: RfPirate.Proofs.MenuPath
Layer: Proofs
Purpose: The key handler of the menu against a path in the menu tree. A path is the list of levels
  from the current menu up to the root, each with its cursor. `MenuInv` ties the stack of the menu
  object to the tree; every part of the key handler keeps it, and drawing fills in the number of
  entries.
Main exports: IsMenu, MenuTree, navigate, World.path, KeepsMenu, MenuInv, keyHandler_inv, PathLaw,
  menu_refines_path
-/
import RfPirate.Proofs.HandlerStack
import RfPirate.Proofs.MenuDraw

namespace RfPirate

open Lib Lib.Machine

/-! ### Menu trees -/

/-- The array at `menu` has `n` entries and is ended by `MenuEntry(NULL)`. -/
structure IsMenu (menus : MenuPtr → Nat → MenuEntry) (menu : MenuPtr) (n : Nat) : Prop where
  texts : ∀ i < n, (menus menu i).text ≠ none
  last : menus menu n = .dummy none

/-- A menu tree of at most `levels` levels: every array has at most `maxLen` entries, each of them
    is `ok`, and the submenus are trees of fewer levels. -/
def MenuTree (menus : MenuPtr → Nat → MenuEntry) (maxLen : Nat) (ok : MenuEntry → Prop) :
    Nat → MenuPtr → Prop
  | 0, _ => False
  | levels + 1, menu =>
      ∃ n ≤ maxLen, IsMenu menus menu n ∧
        ∀ i < n, ok (menus menu i) ∧
          ∀ next, (menus menu i).next? = some next → MenuTree menus maxLen ok levels next

theorem IsMenu.unique {menus : MenuPtr → Nat → MenuEntry} {menu : MenuPtr} {n m : Nat}
    (hn : IsMenu menus menu n) (hm : IsMenu menus menu m) : n = m := by
  have hle : ∀ {n m : Nat}, IsMenu menus menu n → IsMenu menus menu m → n ≤ m := by
    intro n m hn hm
    by_contra hlt
    refine hn.texts m (by omega) ?_
    rw [hm.last]
    rfl
  exact Nat.le_antisymm (hle hn hm) (hle hm hn)

/-! ### Paths -/

/-- A level of a path: a menu and the cursor in it. -/
abbrev Level := MenuPtr × Nat

/-- What a key does to a path whose current menu has `n` entries. -/
def navigate (menus : MenuPtr → Nat → MenuEntry) (n : Nat) (isOpen : Bool) (k : UInt8) :
    List Level → List Level
  | [] => []
  | (menu, c) :: up =>
      if isOpen then (menu, c) :: up
      else if k = keyUp then (menu, c - 1) :: up
      else if k = keyDown then (menu, if c + 1 < n then c + 1 else c) :: up
      else if k = keyRight then
        match (menus menu c).next? with
        | some next => (next, 0) :: (menu, c) :: up
        | none => (menu, c) :: up
      else if k = keyLeft then if up = [] then [(menu, c)] else up
      else (menu, c) :: up

/-- Menu and cursor of a saved level. -/
def MenuSave.level (s : MenuSave) : Level := (s.menu, s.selected)

/-- The levels under level `i` of a stack, the highest first. -/
def below (stack : Nat → MenuSave) : Nat → List Level
  | 0 => []
  | i + 1 => (stack i).level :: below stack i

/-- The path the menu object stands for, current menu first. -/
def World.path {σ : Type*} (w : World σ) : List Level :=
  below w.menu.stack (w.menu.stackIdx + 1)

theorem below_congr {stack stack' : Nat → MenuSave} {i : Nat}
    (h : ∀ k < i, (stack' k).level = (stack k).level) : below stack' i = below stack i := by
  induction i with
  | zero => rfl
  | succ i ih =>
      rw [below, below, h i (Nat.lt_succ_self i), ih fun k hk => h k (Nat.lt_succ_of_lt hk)]

theorem below_eq_nil_iff {stack : Nat → MenuSave} {i : Nat} : below stack i = [] ↔ i = 0 := by
  cases i <;> simp [below]

/-! ### The invariant -/

section Inv

variable {σ : Type*} (P : Program σ) (maxLen : Nat) (ok : MenuEntry → Prop)

/-- A saved level is a menu of the tree with the cursor on one of its entries, if it has any, and
    its entries are counted, or not yet. -/
structure LevelOk (levels : Nat) (s : MenuSave) : Prop where
  tree : MenuTree P.menus maxLen ok levels s.menu
  cursor : ∀ n, IsMenu P.menus s.menu n → s.selected < max n 1
  count : s.numEntries = 0 ∨ IsMenu P.menus s.menu s.numEntries

/-- The stack is a path in the tree. -/
structure MenuInv (w : World σ) : Prop where
  cur_eq : w.menu.cur = w.menu.stackIdx
  depth : w.menu.stackIdx < maxMenuDepth
  level : ∀ k ≤ w.menu.stackIdx, LevelOk P maxLen ok (maxMenuDepth - k) (w.menu.stack k)
  linked : ∀ k < w.menu.stackIdx,
    (P.menus (w.menu.stack k).menu (w.menu.stack k).selected).next? =
      some (w.menu.stack (k + 1)).menu

/-- The entries of the current menu are counted. -/
def Counted (w : World σ) : Prop := IsMenu P.menus w.cur.menu w.cur.numEntries

variable {P maxLen ok}

/-- The entry under the cursor of a level, when it leads to a submenu. -/
theorem LevelOk.entered {levels : Nat} {s : MenuSave} (h : LevelOk P maxLen ok levels s)
    {next : MenuPtr} (hnext : (P.menus s.menu s.selected).next? = some next) :
    (P.menus s.menu s.selected).text ≠ none ∧ ok (P.menus s.menu s.selected) ∧
      ∃ levels', levels = levels' + 1 ∧ MenuTree P.menus maxLen ok levels' next := by
  have htree := h.tree
  cases levels with
  | zero => exact absurd htree (by simp [MenuTree])
  | succ levels' =>
      obtain ⟨n, -, hmenu, hentries⟩ := htree
      have hcursor := h.cursor n hmenu
      have hlt : s.selected < n := by
        by_contra hge
        -- the cursor is on the terminator, which leads nowhere
        have hlast : s.selected = n := by omega
        rw [hlast, hmenu.last] at hnext
        simp [MenuEntry.next?] at hnext
      obtain ⟨hok, hsub⟩ := hentries _ hlt
      exact ⟨hmenu.texts _ hlt, hok, levels', rfl, hsub next hnext⟩

theorem LevelOk.menu {levels : Nat} {s : MenuSave} (h : LevelOk P maxLen ok levels s) :
    ∃ n ≤ maxLen, IsMenu P.menus s.menu n := by
  have htree := h.tree
  cases levels with
  | zero => exact absurd htree (by simp [MenuTree])
  | succ levels' =>
      obtain ⟨n, hn, hmenu, -⟩ := htree
      exact ⟨n, hn, hmenu⟩

namespace MenuInv

variable {w w' : World σ}

theorem cur_def (h : MenuInv P maxLen ok w) : w.cur = w.menu.stack w.menu.stackIdx := by
  rw [World.cur, h.cur_eq]

theorem current (h : MenuInv P maxLen ok w) :
    LevelOk P maxLen ok (maxMenuDepth - w.menu.stackIdx) w.cur := by
  rw [h.cur_def]
  exact h.level _ (Nat.le_refl _)

theorem count_current (h : MenuInv P maxLen ok w) {n : Nat}
    (hmenu : IsMenu P.menus w.cur.menu n) : w.cur.numEntries = 0 ∨ w.cur.numEntries = n :=
  h.current.count.imp_right fun hcounted => hcounted.unique hmenu

/-- The invariant looks at nothing but the used part of the stack, and not at the handler bits. -/
theorem congr (h : MenuInv P maxLen ok w) (hcur : w'.menu.cur = w.menu.cur)
    (hidx : w'.menu.stackIdx = w.menu.stackIdx)
    (hstack : ∀ k ≤ w.menu.stackIdx, (w'.menu.stack k).level = (w.menu.stack k).level ∧
      (w'.menu.stack k).numEntries = (w.menu.stack k).numEntries) : MenuInv P maxLen ok w' := by
  have hmenu : ∀ k ≤ w.menu.stackIdx, (w'.menu.stack k).menu = (w.menu.stack k).menu :=
    fun k hk => congrArg Prod.fst (hstack k hk).1
  have hselected : ∀ k ≤ w.menu.stackIdx,
      (w'.menu.stack k).selected = (w.menu.stack k).selected :=
    fun k hk => congrArg Prod.snd (hstack k hk).1
  constructor
  · rw [hcur, hidx, h.cur_eq]
  · rw [hidx]
    exact h.depth
  · intro k hk
    rw [hidx] at hk
    obtain ⟨htree, hcursor, hcount⟩ := h.level k hk
    constructor
    · rw [hmenu k hk]
      exact htree
    · rw [hmenu k hk, hselected k hk]
      exact hcursor
    · rw [hmenu k hk, (hstack k hk).2]
      exact hcount
  · intro k hk
    rw [hidx] at hk
    rw [hmenu k (by omega), hselected k (by omega), hmenu (k + 1) (by omega)]
    exact h.linked k hk

theorem setCur_self (h : MenuInv P maxLen ok w) (s : MenuSave) :
    (w.setCur s).menu.stack w.menu.stackIdx = s := by
  rw [← h.cur_eq]
  exact Function.update_self _ _ _

theorem setCur_of_ne (h : MenuInv P maxLen ok w) (s : MenuSave) {k : Nat}
    (hk : k ≠ w.menu.stackIdx) : (w.setCur s).menu.stack k = w.menu.stack k := by
  rw [← h.cur_eq] at hk
  exact Function.update_of_ne hk _ _

/-- A write to the current level that stays in its menu keeps the invariant. -/
theorem setCur (h : MenuInv P maxLen ok w) {s : MenuSave} (hmenu : s.menu = w.cur.menu)
    (hcursor : ∀ n, IsMenu P.menus s.menu n → s.selected < max n 1)
    (hcount : s.numEntries = 0 ∨ IsMenu P.menus s.menu s.numEntries) :
    MenuInv P maxLen ok (w.setCur s) := by
  have hmenus : ∀ k, ((w.setCur s).menu.stack k).menu = (w.menu.stack k).menu := by
    intro k
    by_cases hk : k = w.menu.stackIdx
    · rw [hk, h.setCur_self, hmenu, h.cur_def]
    · rw [h.setCur_of_ne s hk]
  constructor
  · exact h.cur_eq
  · exact h.depth
  · intro k hk
    by_cases htop : k = w.menu.stackIdx
    · rw [htop, h.setCur_self]
      have htree := h.current.tree
      rw [← hmenu] at htree
      exact ⟨htree, hcursor, hcount⟩
    · rw [h.setCur_of_ne s htop]
      exact h.level k hk
  · intro k hk
    have hlt : k < w.menu.stackIdx := hk
    rw [h.setCur_of_ne s (by omega), hmenus (k + 1)]
    exact h.linked k hlt

theorem path_eq (h : MenuInv P maxLen ok w) :
    w.path = w.cur.level :: below w.menu.stack w.menu.stackIdx := by
  rw [World.path, below, h.cur_def]

theorem path_congr (hidx : w'.menu.stackIdx = w.menu.stackIdx)
    (hstack : ∀ k ≤ w.menu.stackIdx, (w'.menu.stack k).level = (w.menu.stack k).level) :
    w'.path = w.path := by
  rw [World.path, World.path, hidx]
  exact below_congr fun k hk => hstack k (by omega)

theorem path_setCur (h : MenuInv P maxLen ok w) (s : MenuSave) :
    (w.setCur s).path = s.level :: below w.menu.stack w.menu.stackIdx := by
  have hother : below (w.setCur s).menu.stack w.menu.stackIdx =
      below w.menu.stack w.menu.stackIdx := by
    apply below_congr
    intro k hk
    exact congrArg MenuSave.level (h.setCur_of_ne s (Nat.ne_of_lt hk))
  show below (w.setCur s).menu.stack (w.menu.stackIdx + 1) = _
  rw [below, h.setCur_self, hother]

/-- Leaving a menu. -/
theorem pop (h : MenuInv P maxLen ok w) (hidx : 0 < w.menu.stackIdx) :
    MenuInv P maxLen ok (popMenu w) ∧
      (popMenu w).path = below w.menu.stack w.menu.stackIdx := by
  obtain ⟨i, hi⟩ : ∃ i, w.menu.stackIdx = i + 1 := ⟨w.menu.stackIdx - 1, by omega⟩
  have hidx' : (popMenu w).menu.stackIdx = i := by simp [popMenu, hi]
  refine ⟨⟨rfl, ?_, ?_, ?_⟩, ?_⟩
  · have hdepth := h.depth
    omega
  · intro k hk
    exact h.level k (by omega)
  · intro k hk
    exact h.linked k (by omega)
  · rw [World.path, hidx', hi]
    rfl

/-- The stack after a push: the level above the current one is set up, except for its handler bit.
    -/
theorem push_menu (h : MenuInv P maxLen ok w) {next : MenuPtr}
    (hnext : (P.entry w).next? = some next) :
    w.menu.stackIdx + 1 < maxMenuDepth ∧
    (pushMenu next w).menu.stackIdx = w.menu.stackIdx + 1 ∧
    (pushMenu next w).menu.cur = w.menu.stackIdx + 1 ∧
    (pushMenu next w).menu.stack =
      Function.update w.menu.stack (w.menu.stackIdx + 1)
        { w.menu.stack (w.menu.stackIdx + 1) with
          menu := next, selected := 0, numEntries := 0 } := by
  obtain ⟨-, -, levels, hlevels, htree⟩ := h.current.entered hnext
  have hdepth : w.menu.stackIdx + 1 < maxMenuDepth := by
    cases levels with
    | zero => exact absurd htree (by simp [MenuTree])
    | succ levels => omega
  have hmod : (w.menu.stackIdx + 1) % 256 = w.menu.stackIdx + 1 :=
    Nat.mod_eq_of_lt (Nat.lt_trans hdepth (by decide))
  have hsave : Function.update w.menu.stack w.menu.stackIdx
      { w.menu.stack w.menu.stackIdx with menu := w.cur.menu, selected := w.cur.selected } =
      w.menu.stack := by
    rw [h.cur_def]
    exact Function.update_eq_self _ _
  refine ⟨hdepth, hmod, hmod, ?_⟩
  simp only [pushMenu, hsave, hmod]

/-- Entering the submenu of the entry under the cursor. -/
theorem push (h : MenuInv P maxLen ok w) {next : MenuPtr}
    (hnext : (P.entry w).next? = some next) :
    MenuInv P maxLen ok (pushMenu next w) ∧ (pushMenu next w).path = (next, 0) :: w.path := by
  obtain ⟨-, -, levels, hlevels, htree⟩ := h.current.entered hnext
  obtain ⟨hdepth, hidx, hcur, hstack⟩ := h.push_menu hnext
  have hold : ∀ k ≤ w.menu.stackIdx, (pushMenu next w).menu.stack k = w.menu.stack k := by
    intro k hk
    rw [hstack]
    exact Function.update_of_ne (by omega) _ _
  have hnew : (pushMenu next w).menu.stack (w.menu.stackIdx + 1) =
      { w.menu.stack (w.menu.stackIdx + 1) with
        menu := next, selected := 0, numEntries := 0 } := by
    rw [hstack]
    exact Function.update_self _ _ _
  refine ⟨⟨?_, ?_, ?_, ?_⟩, ?_⟩
  · rw [hcur, hidx]
  · rw [hidx]
    exact hdepth
  · intro k hk
    rw [hidx] at hk
    rcases Nat.lt_or_eq_of_le hk with hlt | heq
    · rw [hold k (by omega)]
      exact h.level k (by omega)
    · subst heq
      rw [hnew]
      have hlevels' : maxMenuDepth - (w.menu.stackIdx + 1) = levels := by omega
      refine ⟨?_, fun n _ => by simp, Or.inl rfl⟩
      rw [hlevels']
      exact htree
  · intro k hk
    rw [hidx] at hk
    rw [hold k (by omega)]
    rcases Nat.lt_or_eq_of_le (Nat.le_of_lt_succ hk) with hlt | heq
    · rw [hold (k + 1) (by omega)]
      exact h.linked k hlt
    · subst heq
      rw [hnew, ← h.cur_def]
      exact hnext
  · rw [World.path, hidx, below, hnew]
    congr 1
    exact below_congr fun k hk => congrArg MenuSave.level (hold k (by omega))

end MenuInv

/-! ### Drawing -/

section Draw

variable {w w' : World σ}

/-- The counting loop finds the terminator. -/
theorem countEntries_eq {menu : MenuPtr} {n cnt : Nat} (hmenu : IsMenu P.menus menu n)
    (hcnt : countEntries P menu = some cnt) : cnt = n := by
  obtain ⟨hnone, hrange, hbefore⟩ := List.find?_range_eq_some.mp hcnt
  have hle : n ≤ cnt := by
    by_contra hlt
    exact hmenu.texts cnt (by omega) (by simpa using hnone)
  by_contra hne
  have hsome := hbefore n (by omega)
  rw [hmenu.last] at hsome
  simp [MenuEntry.text] at hsome

theorem countEntries_of_isMenu {menu : MenuPtr} {n : Nat} (hmenu : IsMenu P.menus menu n)
    (hn : n < 256) : countEntries P menu = some n := by
  apply List.find?_range_eq_some.mpr
  refine ⟨?_, List.mem_range.mpr hn, ?_⟩
  · rw [hmenu.last]
    rfl
  · intro i hi
    simpa [Option.isSome_iff_ne_none] using hmenu.texts i hi

/-- The count that drawing starts with: what the loop finds, or the count kept from before. -/
theorem count_eq {n cnt : Nat} (hmenu : IsMenu P.menus w.cur.menu n)
    (hcount : w.cur.numEntries = 0 ∨ w.cur.numEntries = n)
    (hcnt : (if w.cur.numEntries = 0 then countEntries P w.cur.menu
      else some w.cur.numEntries) = some cnt) : cnt = n := by
  by_cases hzero : w.cur.numEntries = 0
  · rw [if_pos hzero] at hcnt
    exact countEntries_eq hmenu hcnt
  · rw [if_neg hzero] at hcnt
    exact (Option.some.inj hcnt).symm.trans (hcount.resolve_left hzero)

theorem count_of_isMenu {n : Nat} (hmenu : IsMenu P.menus w.cur.menu n) (hn : n < 256)
    (hcount : w.cur.numEntries = 0 ∨ w.cur.numEntries = n) :
    (if w.cur.numEntries = 0 then countEntries P w.cur.menu else some w.cur.numEntries) =
      some n := by
  by_cases hzero : w.cur.numEntries = 0
  · rw [if_pos hzero]
    exact countEntries_of_isMenu hmenu hn
  · rw [if_neg hzero, hcount.resolve_left hzero]

/-- What drawing leaves alone. -/
structure DrawKeeps (w w' : World σ) : Prop where
  path : w'.path = w.path
  level : w'.cur.level = w.cur.level
  handlers : w'.handlers = w.handlers
  opened : w'.opened = w.opened
  drops : w'.drops = w.drops

theorem drawMenu_keeps (h : drawMenu P w = some w') : DrawKeeps w w' := by
  obtain ⟨cnt, oled, buf, -, rfl⟩ := drawMenu_eq h
  refine ⟨MenuInv.path_congr rfl fun k _ => ?_, ?_, rfl, rfl, rfl⟩
  · show (Function.update w.menu.stack w.menu.cur { w.cur with numEntries := cnt } k).level = _
    by_cases hk : k = w.menu.cur
    · rw [hk, Function.update_self]
      rfl
    · rw [Function.update_of_ne hk]
  · show (w.setCur { w.cur with numEntries := cnt }).cur.level = w.cur.level
    rw [cur_setCur]
    rfl

theorem DrawKeeps.entry (h : DrawKeeps w w') : P.entry w' = P.entry w := by
  obtain ⟨hmenu, hselected⟩ := Prod.mk.inj h.level
  rw [Program.entry, Program.entry, hmenu, hselected]

/-- Drawing keeps the invariant and the path, and counts the entries. -/
theorem MenuInv.draw (h : MenuInv P maxLen ok w) (hdraw : drawMenu P w = some w') :
    MenuInv P maxLen ok w' ∧ Counted P w' ∧ w'.path = w.path := by
  obtain ⟨cnt, oled, buf, hcnt, rfl⟩ := drawMenu_eq hdraw
  obtain ⟨n, -, hmenu⟩ := h.current.menu
  obtain rfl : cnt = n := count_eq hmenu (h.count_current hmenu) hcnt
  have hset := h.setCur (s := { w.cur with numEntries := cnt }) rfl h.current.cursor (Or.inr hmenu)
  have hcur : (w.setCur { w.cur with numEntries := cnt }).cur = { w.cur with numEntries := cnt } :=
    cur_setCur w _
  refine ⟨hset.congr rfl rfl fun k _ => ⟨rfl, rfl⟩, ?_, (drawMenu_keeps hdraw).path⟩
  show Counted P (w.setCur { w.cur with numEntries := cnt })
  rw [Counted, hcur]
  exact hmenu

theorem MenuInv.header (h : MenuInv P maxLen ok w) : (header P w).isSome := by
  unfold RfPirate.header
  split
  · rfl
  · rename_i hidx
    have hlink := h.linked (w.menu.stackIdx - 1) (by omega)
    have htext := ((h.level (w.menu.stackIdx - 1) (by omega)).entered hlink).1
    obtain ⟨text, htext'⟩ := Option.ne_none_iff_exists'.mp htext
    simp [htext']

/-- Drawing a menu of less than 256 entries with the cursor on one of them returns. -/
theorem drawMenu_total {n : Nat} (hcur : w.menu.cur = w.menu.stackIdx)
    (hheader : (header P w).isSome) (hmenu : IsMenu P.menus w.cur.menu n) (hn : n < 256)
    (hcount : w.cur.numEntries = 0 ∨ w.cur.numEntries = n)
    (hcursor : w.cur.selected < max n 1) : (drawMenu P w).isSome := by
  refine drawMenu_isSome_iff.mpr ⟨n, count_of_isMenu hmenu hn hcount, ?_, fun j hj hjn => .inr ?_⟩
  · rw [header_setCur hcur]
    exact hheader
  · have hline : j < w.menu.visibleLines := hj
    rw [cur_setCur] at hjn ⊢
    apply hmenu.texts
    -- the window ends at the cursor, or it starts at entry 0
    have hentry : j < n := hjn
    rw [windowTop, cur_setCur]
    show (if w.cur.selected + 1 > w.menu.visibleLines then
      (w.cur.selected + 1 - w.menu.visibleLines) % 256 else 0) + j < n
    split <;> omega

/-- Drawing a menu of a tree whose arrays have less than 256 entries returns. -/
theorem MenuInv.draw_total (h : MenuInv P maxLen ok w) (hlen : maxLen < 256) :
    (drawMenu P w).isSome := by
  obtain ⟨n, hn, hmenu⟩ := h.current.menu
  exact drawMenu_total h.cur_eq h.header hmenu (by omega) (h.count_current hmenu)
    (h.current.cursor n hmenu)

end Draw

end Inv

/-! ### What leaves the stack alone -/

section SameStack

variable {σ : Type*}

/-- The menu stack is the same in both worlds. -/
structure SameStack (w w' : World σ) : Prop where
  cur : w'.menu.cur = w.menu.cur
  stack : w'.menu.stack = w.menu.stack
  stackIdx : w'.menu.stackIdx = w.menu.stackIdx

/-- Callbacks and exec functions do not touch the menu stack. -/
structure KeepsMenu (P : Program σ) : Prop where
  call : ∀ cb event data w, SameStack w (P.call cb event data w).2
  exec : ∀ f w, SameStack w (P.exec f w)

variable {P : Program σ} {maxLen : Nat} {ok : MenuEntry → Prop} {w w' w'' : World σ}

namespace SameStack

theorem refl (w : World σ) : SameStack w w := ⟨rfl, rfl, rfl⟩

theorem trans (h : SameStack w w') (h' : SameStack w' w'') : SameStack w w'' :=
  ⟨h'.cur.trans h.cur, h'.stack.trans h.stack, h'.stackIdx.trans h.stackIdx⟩

theorem cur_eq (h : SameStack w w') : w'.cur = w.cur := by
  rw [World.cur, World.cur, h.stack, h.cur]

theorem entry_eq (h : SameStack w w') : P.entry w' = P.entry w := by
  rw [Program.entry, Program.entry, h.cur_eq]

theorem path_eq (h : SameStack w w') : w'.path = w.path :=
  MenuInv.path_congr h.stackIdx fun k _ => by rw [h.stack]

theorem inv (h : SameStack w w') (hinv : MenuInv P maxLen ok w) : MenuInv P maxLen ok w' :=
  hinv.congr h.cur h.stackIdx fun k _ => by rw [h.stack]; exact ⟨rfl, rfl⟩

/-- A traversal of the handlers leaves the stack alone. -/
theorem syncevent (hkeep : KeepsMenu P) {event : UInt8} {data : UInt16} {fuel : Nat}
    {offers : List Offer}
    (h : evtHandlerSyncevent P.callbacks event data fuel w = some (w', offers)) :
    SameStack w w' :=
  syncevent_keeps (fun cb w₁ h₁ => h₁.trans (hkeep.call cb event data w₁)) h (refl w)

end SameStack

end SameStack

/-! ### Keys -/

section Keys

variable {σ : Type*} {P : Program σ} {maxLen : Nat} {ok : MenuEntry → Prop} {fuel : Nat}
  {w w' : World σ} {offers : List Offer}

theorem next?_of_isDropdown {e : MenuEntry} (h : e.isDropdown = true) : e.next? = none := by
  cases e <;> simp_all [MenuEntry.isDropdown, MenuEntry.next?]

theorem next?_of_onDropdown {b : Bool} (h : P.onDropdown w b = true) :
    (P.entry w).next? = none := by
  rw [Program.onDropdown, Bool.and_eq_true] at h
  exact next?_of_isDropdown h.1

/-- What `KEY_LEFT` can do. -/
inductive LeftEffect (P : Program σ) (fuel : Nat) (w w' : World σ) : List Offer → Prop where
  | close (opened : P.onDropdown w true = true) (eq : w' = w.setOpened false) :
      LeftEffect P fuel w w' []
  | root (closed : P.onDropdown w true = false) (idx : w.menu.stackIdx = 0) (eq : w' = w) :
      LeftEffect P fuel w w' []
  | leave (closed : P.onDropdown w true = false) (idx : 0 < w.menu.stackIdx)
      (unset : (popMenu w).cur.evtHdlSet = false) (eq : w' = popMenu w) : LeftEffect P fuel w w' []
  | leaveApp {w₂ : World σ} {offers : List Offer} (closed : P.onDropdown w true = false)
      (idx : 0 < w.menu.stackIdx) (set : (popMenu w).cur.evtHdlSet = true)
      (stop : evtHandlerSyncevent P.callbacks eventAppStop 0 fuel (stopApp w) = some (w₂, offers))
      (eq : w' = { w₂ with handlers := evtHandlerPophandler w₂.handlers }) :
      LeftEffect P fuel w w' offers

theorem keyLeftCase_effect (h : keyLeftCase P fuel w = some (w', offers)) :
    LeftEffect P fuel w w' offers := by
  unfold keyLeftCase at h
  cases hopen : P.onDropdown w true with
  | true =>
      simp only [hopen, if_true, Option.some.injEq, Prod.mk.injEq] at h
      obtain ⟨rfl, rfl⟩ := h
      exact .close hopen rfl
  | false =>
      simp only [hopen, Bool.false_eq_true, if_false] at h
      by_cases hidx : 0 < w.menu.stackIdx
      · rw [if_pos hidx] at h
        cases hset : (popMenu w).cur.evtHdlSet with
        | false =>
            simp only [hset, Bool.false_eq_true, if_false, Option.some.injEq, Prod.mk.injEq] at h
            obtain ⟨rfl, rfl⟩ := h
            exact .leave hopen hidx hset rfl
        | true =>
            simp only [hset, if_true] at h
            split at h
            · simp at h
            · rename_i w₂ offers₂ hstop
              simp only [Option.some.injEq, Prod.mk.injEq] at h
              obtain ⟨rfl, rfl⟩ := h
              exact .leaveApp hopen hidx hset hstop rfl
      · rw [if_neg hidx] at h
        simp only [Option.some.injEq, Prod.mk.injEq] at h
        obtain ⟨rfl, rfl⟩ := h
        exact .root hopen (by omega) rfl

/-- What `KEY_RIGHT` can do. -/
inductive RightEffect (P : Program σ) (fuel : Nat) (w w' : World σ) : List Offer → Prop where
  | openDrop (closed : P.onDropdown w false = true)
      (eq : w' = { w.setOpened true with
        drops := (P.entry (w.setOpened true)).initializeEntry w.drops }) :
      RightEffect P fuel w w' []
  | enter {text : Option CStr} {next : MenuPtr} (entry : P.entry w = .branch text next)
      (eq : w' = pushMenu next w) : RightEffect P fuel w w' []
  | enterApp {text : Option CStr} {next next' : MenuPtr} {cb : Option EventNotifyCb}
      {w₂ : World σ} {offers : List Offer} (entry : P.entry w = .evtHdl text next cb)
      (start : evtHandlerSyncevent P.callbacks eventAppStart P.sys fuel (startApp cb w) =
        some (w₂, offers))
      (sub : (P.entry w₂).next? = some next') (eq : w' = pushMenu next' w₂) :
      RightEffect P fuel w w' offers
  | nothing (leaf : (P.entry w).next? = none) (eq : w' = w) : RightEffect P fuel w w' []

theorem keyRightCase_effect (h : keyRightCase P fuel w = some (w', offers)) :
    RightEffect P fuel w w' offers := by
  unfold keyRightCase at h
  cases hclosed : P.onDropdown w false with
  | true =>
      simp only [hclosed, if_true, Option.some.injEq, Prod.mk.injEq] at h
      obtain ⟨rfl, rfl⟩ := h
      exact .openDrop hclosed rfl
  | false =>
      simp only [hclosed, Bool.false_eq_true, if_false] at h
      cases hentry : P.entry w with
      | branch text next =>
          simp only [hentry, Option.some.injEq, Prod.mk.injEq] at h
          obtain ⟨rfl, rfl⟩ := h
          exact .enter hentry rfl
      | evtHdl text next cb =>
          simp only [hentry] at h
          split at h
          · simp at h
          · rename_i w₂ offers₂ hstart
            split at h
            · simp at h
            · rename_i next' hsub
              simp only [Option.some.injEq, Prod.mk.injEq] at h
              obtain ⟨rfl, rfl⟩ := h
              exact .enterApp hentry hstart hsub rfl
      | dummy text =>
          simp only [hentry, Option.some.injEq, Prod.mk.injEq] at h
          obtain ⟨rfl, rfl⟩ := h
          exact .nothing (by rw [hentry]; rfl) rfl
      | exec text f =>
          simp only [hentry, Option.some.injEq, Prod.mk.injEq] at h
          obtain ⟨rfl, rfl⟩ := h
          exact .nothing (by rw [hentry]; rfl) rfl
      | dropdown text d type =>
          simp only [hentry, Option.some.injEq, Prod.mk.injEq] at h
          obtain ⟨rfl, rfl⟩ := h
          exact .nothing (by rw [hentry]; rfl) rfl

/-- Writing the handler bit of the current level. -/
theorem MenuInv.setBit (h : MenuInv P maxLen ok w) (b : Bool) :
    MenuInv P maxLen ok (w.setCur { w.cur with evtHdlSet := b }) ∧
      (w.setCur { w.cur with evtHdlSet := b }).path = w.path ∧
      (w.setCur { w.cur with evtHdlSet := b }).cur = { w.cur with evtHdlSet := b } := by
  refine ⟨h.setCur rfl h.current.cursor h.current.count, ?_, Function.update_self _ _ _⟩
  rw [h.path_setCur, h.path_eq]
  rfl

theorem MenuInv.startApp (h : MenuInv P maxLen ok w) (cb : Option EventNotifyCb) :
    MenuInv P maxLen ok (startApp cb w) ∧ (RfPirate.startApp cb w).path = w.path ∧
      P.entry (RfPirate.startApp cb w) = P.entry w := by
  obtain ⟨hinv, hpath, hcur⟩ := h.setBit true
  have hsame : SameStack (w.setCur { w.cur with evtHdlSet := true })
      (RfPirate.startApp cb w) := ⟨rfl, rfl, rfl⟩
  refine ⟨hsame.inv hinv, hsame.path_eq.trans hpath, ?_⟩
  rw [hsame.entry_eq, Program.entry, hcur]
  rfl

theorem MenuInv.stopApp (h : MenuInv P maxLen ok w) (hidx : 0 < w.menu.stackIdx) :
    MenuInv P maxLen ok (stopApp w) ∧
      (RfPirate.stopApp w).path = below w.menu.stack w.menu.stackIdx := by
  obtain ⟨hinv, hpath⟩ := h.pop hidx
  obtain ⟨hinv', hpath', -⟩ := hinv.setBit false
  exact ⟨hinv', hpath'.trans hpath⟩

/-- Every key keeps the path in the tree. -/
theorem keyLeftCase_inv (hkeep : KeepsMenu P) (h : MenuInv P maxLen ok w)
    (hkey : keyLeftCase P fuel w = some (w', offers)) (n : Nat) :
    MenuInv P maxLen ok w' ∧
      w'.path = navigate P.menus n (P.onDropdown w true) keyLeft w.path := by
  have hnav : ∀ b, navigate P.menus n b keyLeft w.path =
      if b = true ∨ w.menu.stackIdx = 0 then w.path
      else below w.menu.stack w.menu.stackIdx := by
    intro b
    rw [h.path_eq]
    cases b with
    | true => simp [navigate, MenuSave.level]
    | false =>
        simp only [navigate, MenuSave.level, below_eq_nil_iff, keyLeft, keyUp, keyDown, keyRight]
        by_cases hzero : w.menu.stackIdx = 0 <;> simp [hzero, below]
  rw [hnav]
  cases keyLeftCase_effect hkey with
  | close opened eq =>
      subst eq
      have hsame : SameStack w (w.setOpened false) := ⟨rfl, rfl, rfl⟩
      rw [if_pos (Or.inl opened)]
      exact ⟨hsame.inv h, hsame.path_eq⟩
  | root closed idx eq =>
      subst eq
      rw [if_pos (Or.inr idx)]
      exact ⟨h, rfl⟩
  | leave closed idx unset eq =>
      subst eq
      rw [closed, if_neg (by simp; omega)]
      exact h.pop idx
  | @leaveApp w₂ _ closed idx set stop eq =>
      subst eq
      rw [closed, if_neg (by simp; omega)]
      obtain ⟨hinv, hpath⟩ := h.stopApp idx
      have hsame := SameStack.syncevent hkeep stop
      have hpop : SameStack w₂ { w₂ with handlers := evtHandlerPophandler w₂.handlers } :=
        ⟨rfl, rfl, rfl⟩
      exact ⟨(hsame.trans hpop).inv hinv, (hsame.trans hpop).path_eq.trans hpath⟩

/-- `KEY_RIGHT` appends the submenu of the entry under the cursor, if there is one. -/
theorem MenuInv.navigate_right (h : MenuInv P maxLen ok w) (n : Nat) :
    navigate P.menus n (P.onDropdown w true) keyRight w.path =
      match (P.entry w).next? with
      | some next => (next, 0) :: w.path
      | none => w.path := by
  rw [h.path_eq]
  cases hopen : P.onDropdown w true with
  | true => simp [navigate, MenuSave.level, next?_of_onDropdown hopen]
  | false =>
      simp only [navigate, MenuSave.level, keyUp, keyDown, keyRight, Program.entry]
      cases hnext : (P.menus w.cur.menu w.cur.selected).next? <;> simp

theorem keyRightCase_inv (hkeep : KeepsMenu P) (h : MenuInv P maxLen ok w)
    (hkey : keyRightCase P fuel w = some (w', offers)) (n : Nat) :
    MenuInv P maxLen ok w' ∧
      w'.path = navigate P.menus n (P.onDropdown w true) keyRight w.path := by
  rw [h.navigate_right]
  cases keyRightCase_effect hkey with
  | openDrop closed eq =>
      subst eq
      rw [next?_of_onDropdown closed]
      have hsame : SameStack w { w.setOpened true with
          drops := (P.entry (w.setOpened true)).initializeEntry w.drops } := ⟨rfl, rfl, rfl⟩
      exact ⟨hsame.inv h, hsame.path_eq⟩
  | enter entry eq =>
      subst eq
      have hnext := congrArg MenuEntry.next? entry
      rw [hnext]
      exact h.push hnext
  | enterApp entry start sub eq =>
      subst eq
      obtain ⟨hinv, hpath, hentry⟩ := h.startApp _
      have hsame := SameStack.syncevent hkeep start
      rw [← hentry, ← hsame.entry_eq, sub]
      obtain ⟨hinv', hpath'⟩ := (hsame.inv hinv).push sub
      rw [hpath', hsame.path_eq, hpath]
      exact ⟨hinv', rfl⟩
  | nothing leaf eq =>
      subst eq
      rw [leaf]
      exact ⟨h, rfl⟩

theorem MenuInv.setSelected (h : MenuInv P maxLen ok w) {c : Nat}
    (hc : ∀ n, IsMenu P.menus w.cur.menu n → c < max n 1) :
    MenuInv P maxLen ok (w.setSelected c) ∧
      (w.setSelected c).path =
        (w.cur.menu, c % 128) :: below w.menu.stack w.menu.stackIdx := by
  refine ⟨h.setCur rfl (fun n hn => ?_) h.current.count, h.path_setCur _⟩
  exact Nat.lt_of_le_of_lt (Nat.mod_le c 128) (hc n hn)

theorem keyUpCase_inv (h : MenuInv P maxLen ok w) :
    MenuInv P maxLen ok (keyUpCase P w) ∧
      (maxLen ≤ 128 → ∀ n,
        (keyUpCase P w).path = navigate P.menus n (P.onDropdown w true) keyUp w.path) := by
  rw [h.path_eq]
  unfold keyUpCase
  cases hopen : P.onDropdown w true with
  | true =>
      have hsame : SameStack w { w with drops := (P.entry w).increment w.drops } := ⟨rfl, rfl, rfl⟩
      refine ⟨hsame.inv h, fun _ n => ?_⟩
      exact hsame.path_eq.trans h.path_eq
  | false =>
      simp only [Bool.false_eq_true, if_false]
      have hless : ∀ n, IsMenu P.menus w.cur.menu n → w.cur.selected - 1 < max n 1 := by
        intro n hn
        have hcursor := h.current.cursor n hn
        omega
      obtain ⟨hinv, hpath⟩ := h.setSelected hless
      refine ⟨hinv, fun hlen n => ?_⟩
      obtain ⟨m, hm, hmenu⟩ := h.current.menu
      have hcursor := hless m hmenu
      rw [hpath, Nat.mod_eq_of_lt (by omega)]
      simp [navigate, MenuSave.level]

theorem keyDownCase_inv (h : MenuInv P maxLen ok w) :
    MenuInv P maxLen ok (keyDownCase P w) ∧
      (maxLen ≤ 128 →
        (keyDownCase P w).path =
          navigate P.menus w.cur.numEntries (P.onDropdown w true) keyDown w.path) := by
  rw [h.path_eq]
  unfold keyDownCase
  cases hopen : P.onDropdown w true with
  | true =>
      have hsame : SameStack w { w with drops := (P.entry w).decrement w.drops } := ⟨rfl, rfl, rfl⟩
      refine ⟨hsame.inv h, fun _ => ?_⟩
      exact hsame.path_eq.trans h.path_eq
  | false =>
      simp only [Bool.false_eq_true, if_false]
      by_cases hend : w.cur.selected + 1 ≥ w.cur.numEntries
      · rw [if_pos hend]
        refine ⟨h, fun _ => ?_⟩
        rw [h.path_eq]
        simp [navigate, MenuSave.level, keyDown, keyUp, Nat.not_lt.mpr hend]
      · rw [if_neg hend]
        have hcounted := h.current.count.resolve_left (by omega)
        have hless : ∀ n, IsMenu P.menus w.cur.menu n → w.cur.selected + 1 < max n 1 := by
          intro n hn
          rw [hn.unique hcounted]
          omega
        obtain ⟨hinv, hpath⟩ := h.setSelected hless
        refine ⟨hinv, fun hlen => ?_⟩
        obtain ⟨m, hm, hmenu⟩ := h.current.menu
        have hcursor := hless m hmenu
        rw [hpath, Nat.mod_eq_of_lt (by omega)]
        simp [navigate, MenuSave.level, keyDown, keyUp, Nat.lt_of_not_ge hend]

theorem keySelectCase_same (hkeep : KeepsMenu P) : SameStack w (keySelectCase P w) := by
  unfold keySelectCase
  split
  · exact hkeep.exec _ w
  · exact .refl w

/-- Keys that are not one of the arrows leave the path alone. -/
theorem navigate_other {k : UInt8} (hup : k ≠ keyUp) (hdown : k ≠ keyDown) (hleft : k ≠ keyLeft)
    (hright : k ≠ keyRight) (n : Nat) (isOpen : Bool) (path : List Level) :
    navigate P.menus n isOpen k path = path := by
  cases path with
  | nil => rfl
  | cons level up => simp [navigate, hup, hdown, hleft, hright]

/-- What the `switch` of the key handler can do. -/
inductive KeyEffect (P : Program σ) (fuel : Nat) (w w' : World σ) : UInt8 → List Offer → Prop where
  | up (eq : w' = keyUpCase P w) : KeyEffect P fuel w w' keyUp []
  | down (eq : w' = keyDownCase P w) : KeyEffect P fuel w w' keyDown []
  | left {offers : List Offer} (case : keyLeftCase P fuel w = some (w', offers)) :
      KeyEffect P fuel w w' keyLeft offers
  | right {offers : List Offer} (case : keyRightCase P fuel w = some (w', offers)) :
      KeyEffect P fuel w w' keyRight offers
  | select (eq : w' = keySelectCase P w) : KeyEffect P fuel w w' keySelect []
  | other {k : UInt8} (up : k ≠ keyUp) (down : k ≠ keyDown) (left : k ≠ keyLeft)
      (right : k ≠ keyRight) (eq : w' = w) : KeyEffect P fuel w w' k []

theorem keyCase_effect {k : UInt8} (h : keyCase P fuel k w = some (w', offers)) :
    KeyEffect P fuel w w' k offers := by
  unfold keyCase at h
  by_cases hup : k = keyUp
  · subst hup
    simp only [if_true, Option.some.injEq, Prod.mk.injEq] at h
    obtain ⟨rfl, rfl⟩ := h
    exact .up rfl
  rw [if_neg hup] at h
  by_cases hdown : k = keyDown
  · subst hdown
    simp only [if_true, Option.some.injEq, Prod.mk.injEq] at h
    obtain ⟨rfl, rfl⟩ := h
    exact .down rfl
  rw [if_neg hdown] at h
  by_cases hleft : k = keyLeft
  · subst hleft
    rw [if_pos rfl] at h
    exact .left h
  rw [if_neg hleft] at h
  by_cases hright : k = keyRight
  · subst hright
    rw [if_pos rfl] at h
    exact .right h
  rw [if_neg hright] at h
  by_cases hselect : k = keySelect
  · subst hselect
    simp only [if_true, Option.some.injEq, Prod.mk.injEq] at h
    obtain ⟨rfl, rfl⟩ := h
    exact .select rfl
  · rw [if_neg hselect] at h
    simp only [Option.some.injEq, Prod.mk.injEq] at h
    obtain ⟨rfl, rfl⟩ := h
    exact .other hup hdown hleft hright rfl

/-- A call of the key handler is the switch and a redraw. -/
theorem keyHandler_effect {k : UInt8} (h : keyHandler P fuel w k = some (w', offers)) :
    ∃ w₁, KeyEffect P fuel w w₁ k offers ∧ drawMenu P w₁ = some w' := by
  simp only [keyHandler] at h
  split at h
  · simp at h
  · rename_i w₁ offers₁ hcase
    split at h
    · simp at h
    · rename_i w₂ hdraw
      simp only [Option.some.injEq, Prod.mk.injEq] at h
      obtain ⟨rfl, rfl⟩ := h
      exact ⟨w₁, keyCase_effect hcase, hdraw⟩

theorem keyHandler_of_case {k : UInt8} (h : keyCase P fuel k w = some (w', offers)) :
    keyHandler P fuel w k = (drawMenu P w').map (·, offers) := by
  simp only [keyHandler, h]
  cases drawMenu P w' <;> rfl

/-- The switch keeps the path in the tree, and moves it as the reference does. -/
theorem KeyEffect.inv (hkeep : KeepsMenu P) (h : MenuInv P maxLen ok w) {k : UInt8}
    (hkey : KeyEffect P fuel w w' k offers) :
    MenuInv P maxLen ok w' ∧
      (maxLen ≤ 128 →
        w'.path = navigate P.menus w.cur.numEntries (P.onDropdown w true) k w.path) := by
  cases hkey with
  | up eq =>
      subst eq
      exact ⟨(keyUpCase_inv h).1, fun hlen => (keyUpCase_inv h).2 hlen _⟩
  | down eq =>
      subst eq
      exact keyDownCase_inv h
  | left case =>
      obtain ⟨hinv, hpath⟩ := keyLeftCase_inv hkeep h case w.cur.numEntries
      exact ⟨hinv, fun _ => hpath⟩
  | right case =>
      obtain ⟨hinv, hpath⟩ := keyRightCase_inv hkeep h case w.cur.numEntries
      exact ⟨hinv, fun _ => hpath⟩
  | select eq =>
      subst eq
      have hsame : SameStack w (keySelectCase P w) := keySelectCase_same hkeep
      refine ⟨hsame.inv h, fun _ => ?_⟩
      rw [hsame.path_eq]
      exact (navigate_other (by decide) (by decide) (by decide) (by decide) _ _ _).symm
  | other up down left right eq =>
      subst eq
      exact ⟨h, fun _ => (navigate_other up down left right _ _ _).symm⟩

/-- A key keeps the path in the tree, moves it as the reference does, and leaves the current menu
    counted. -/
theorem keyHandler_inv (hkeep : KeepsMenu P) (h : MenuInv P maxLen ok w) {k : UInt8}
    (hkey : keyHandler P fuel w k = some (w', offers)) :
    MenuInv P maxLen ok w' ∧ Counted P w' ∧
      (maxLen ≤ 128 →
        w'.path = navigate P.menus w.cur.numEntries (P.onDropdown w true) k w.path) := by
  obtain ⟨w₁, heffect, hdraw⟩ := keyHandler_effect hkey
  obtain ⟨hinv, hpath⟩ := heffect.inv hkeep h
  obtain ⟨hinv', hcounted, hsame⟩ := hinv.draw hdraw
  exact ⟨hinv', hcounted, fun hlen => hsame.trans (hpath hlen)⟩

/-! ### Keys return -/

/-- Callbacks and exec functions do not add or pop handlers. -/
structure KeepsHandlers (P : Program σ) : Prop where
  call : ∀ cb event data w, (P.call cb event data w).2.handlers = w.handlers
  exec : ∀ f w, (P.exec f w).handlers = w.handlers

/-- The handler list is one that adding and popping can produce. -/
def HandlersOk (w : World σ) : Prop := ∃ cbs, Registered w.handlers cbs

theorem HandlersOk.add {h : HandlerList} (hok : ∃ cbs, Registered h cbs) :
    ∀ cb, ∃ cbs, Registered (evtHandlerAddhandler h cb) cbs
  | none => hok
  | some cb =>
      let ⟨_, hr⟩ := hok
      ⟨_, addhandler_registered hr cb⟩

theorem HandlersOk.pop {h : HandlerList} (hok : ∃ cbs, Registered h cbs) :
    ∃ cbs, Registered (evtHandlerPophandler h) cbs := by
  obtain ⟨cbs, hr⟩ := hok
  cases cbs with
  | nil =>
      rw [pophandler_nil hr]
      exact ⟨[], hr⟩
  | cons cb cbs => exact ⟨cbs, pophandler_registered hr⟩

theorem HandlersOk.draw (hok : HandlersOk w) (hdraw : drawMenu P w = some w') :
    HandlersOk w' := by
  rw [HandlersOk, (drawMenu_keeps hdraw).handlers]
  exact hok

theorem syncevent_sameHandlers (hquiet : KeepsHandlers P) {event : UInt8} {data : UInt16}
    (h : evtHandlerSyncevent P.callbacks event data fuel w = some (w', offers)) :
    w'.handlers = w.handlers := by
  have hkeeps : ∀ cb w₁, w₁.handlers = w.handlers →
      (P.callbacks.call cb event data w₁).2.handlers = w.handlers :=
    fun cb w₁ h₁ => (hquiet.call cb event data w₁).trans h₁
  have hsame := syncevent_keeps hkeeps h rfl
  exact hsame

theorem syncevent_returns (hquiet : KeepsHandlers P) (hok : HandlersOk w)
    (hfuel : maxHandlers ≤ fuel) (event : UInt8) (data : UInt16) :
    ∃ w' offers, evtHandlerSyncevent P.callbacks event data fuel w = some (w', offers) ∧
      w'.handlers = w.handlers := by
  obtain ⟨cbs, hr⟩ := hok
  have hsome : (evtHandlerSyncevent P.callbacks event data fuel w).isSome :=
    syncevent_total hr (fun cb w => hquiet.call cb event data w) hfuel
  obtain ⟨⟨w', offers⟩, hsync⟩ := Option.isSome_iff_exists.mp hsome
  exact ⟨w', offers, hsync, syncevent_sameHandlers hquiet hsync⟩

theorem keyLeftCase_total (hquiet : KeepsHandlers P) (hok : HandlersOk w)
    (hfuel : maxHandlers ≤ fuel) :
    ∃ w' offers, keyLeftCase P fuel w = some (w', offers) ∧ HandlersOk w' := by
  unfold keyLeftCase
  split
  · exact ⟨_, _, rfl, hok⟩
  · split
    · split
      · have hok' : HandlersOk (stopApp w) := hok
        obtain ⟨w₂, offers, hsync, hsame⟩ := syncevent_returns hquiet hok' hfuel eventAppStop 0
        rw [hsync]
        refine ⟨_, _, rfl, HandlersOk.pop ?_⟩
        rw [hsame]
        exact hok'
      · exact ⟨_, _, rfl, hok⟩
    · exact ⟨_, _, rfl, hok⟩

theorem keyRightCase_total (hkeep : KeepsMenu P) (hquiet : KeepsHandlers P)
    (h : MenuInv P maxLen ok w) (hok : HandlersOk w) (hfuel : maxHandlers ≤ fuel) :
    ∃ w' offers, keyRightCase P fuel w = some (w', offers) ∧ HandlersOk w' := by
  unfold keyRightCase
  split
  · exact ⟨_, _, rfl, hok⟩
  · cases hentry : P.entry w with
    | branch text next => exact ⟨_, _, rfl, hok⟩
    | dummy text => exact ⟨_, _, rfl, hok⟩
    | exec text f => exact ⟨_, _, rfl, hok⟩
    | dropdown text d type => exact ⟨_, _, rfl, hok⟩
    | evtHdl text next cb =>
        have hok' : HandlersOk (startApp cb w) := HandlersOk.add hok cb
        obtain ⟨w₂, offers, hsync, hsame⟩ :=
          syncevent_returns hquiet hok' hfuel eventAppStart P.sys
        have hsub : (P.entry w₂).next? = some next := by
          rw [(SameStack.syncevent hkeep hsync).entry_eq, (h.startApp cb).2.2, hentry]
          rfl
        simp only [hsync, hsub]
        refine ⟨_, _, rfl, ?_⟩
        show ∃ cbs, Registered w₂.handlers cbs
        rw [hsame]
        exact hok'

/-- With callbacks that do not change the handler list, every key handler call returns. -/
theorem keyHandler_total (hkeep : KeepsMenu P) (hquiet : KeepsHandlers P)
    (h : MenuInv P maxLen ok w) (hok : HandlersOk w) (hlen : maxLen < 256)
    (hfuel : maxHandlers ≤ fuel) (k : UInt8) :
    ∃ w' offers, keyHandler P fuel w k = some (w', offers) ∧ HandlersOk w' := by
  have hcase : ∃ w₁ offers, keyCase P fuel k w = some (w₁, offers) ∧ HandlersOk w₁ := by
    unfold keyCase
    split
    · refine ⟨_, _, rfl, ?_⟩
      unfold keyUpCase
      split <;> exact hok
    · split
      · refine ⟨_, _, rfl, ?_⟩
        unfold keyDownCase
        split
        · exact hok
        · split <;> exact hok
      · split
        · exact keyLeftCase_total hquiet hok hfuel
        · split
          · exact keyRightCase_total hkeep hquiet h hok hfuel
          · split
            · refine ⟨_, _, rfl, ?_⟩
              unfold keySelectCase
              split
              · show ∃ cbs, Registered _ cbs
                rw [hquiet.exec]
                exact hok
              · exact hok
            · exact ⟨_, _, rfl, hok⟩
  obtain ⟨w₁, offers, hkey, hok₁⟩ := hcase
  obtain ⟨w₂, hdraw⟩ := Option.isSome_iff_exists.mp
    (((keyCase_effect hkey).inv hkeep h).1.draw_total hlen)
  refine ⟨w₂, offers, ?_, ?_⟩
  · simp only [keyHandler, hkey, hdraw]
  · exact hok₁.draw hdraw

end Keys

/-! ### Runs -/

section Runs

variable {σ : Type*}

/-- The menu object stands for its path: `cur` points to the top of the used stack, each level is
    the submenu of the entry selected below it, and the entries of the current menu are counted. -/
structure OnPath (P : Program σ) (w : World σ) : Prop where
  cur_eq : w.menu.cur = w.menu.stackIdx
  depth : w.menu.stackIdx < maxMenuDepth
  linked : ∀ k < w.menu.stackIdx,
    (P.menus (w.menu.stack k).menu (w.menu.stack k).selected).next? =
      some (w.menu.stack (k + 1)).menu
  counted : IsMenu P.menus w.cur.menu w.cur.numEntries

/-- What a key has to satisfy: before and after it the object stands for its path, and the key moves
    the path as in the tree, where an open dropdown under the cursor holds it. -/
def PathLaw (P : Program σ) (fuel : Nat) (w : World σ) (k : UInt8) : Prop :=
  OnPath P w ∧ ∀ w' offers, keyHandler P fuel w k = some (w', offers) →
    OnPath P w' ∧
      w'.path = navigate P.menus w.cur.numEntries (P.onDropdown w true) k w.path

variable {P : Program σ} {w w' : World σ} {root : MenuPtr} {maxLen : Nat} {ok : MenuEntry → Prop}

theorem MenuInv.onPath (h : MenuInv P maxLen ok w) (hcounted : Counted P w) : OnPath P w :=
  ⟨h.cur_eq, h.depth, h.linked, hcounted⟩

/-- The object as constructed is at the root. -/
theorem menuInv_ctor (htree : MenuTree P.menus maxLen ok maxMenuDepth root) {mem : Menu}
    {lineStart lineEnd : Nat} (hmenu : w.menu = menuCtor mem root lineStart lineEnd) :
    MenuInv P maxLen ok w ∧ w.path = [(root, 0)] := by
  have hstack : w.menu.stack 0 =
      { menu := root, numEntries := 0, evtHdlSet := false, selected := 0 } := by
    simp [hmenu, menuCtor]
  have hidx : w.menu.stackIdx = 0 := by rw [hmenu]; rfl
  refine ⟨⟨?_, ?_, ?_, ?_⟩, ?_⟩
  · rw [hmenu]
    rfl
  · rw [hidx]
    decide
  · intro k hk
    have hzero : k = 0 := by omega
    subst hzero
    rw [hstack]
    exact ⟨htree, fun n _ => by simp, Or.inl rfl⟩
  · intro k hk
    omega
  · rw [World.path, hidx, below, hstack]
    rfl

/-- With callbacks that do not change the handler list, every run of keys goes to its end. -/
theorem keys_total (hkeep : KeepsMenu P) (hquiet : KeepsHandlers P) (hlen : maxLen < 256)
    {fuel : Nat} (hfuel : maxHandlers ≤ fuel) (h : MenuInv P maxLen ok w) (hok : HandlersOk w)
    (keys : List UInt8) : (run (keyHandler P fuel) w keys).isSome := by
  induction keys generalizing w with
  | nil => rfl
  | cons k keys ih =>
      obtain ⟨w₂, offers, hkey, hok₂⟩ := keyHandler_total hkeep hquiet h hok hlen hfuel k
      obtain ⟨⟨w₃, offers'⟩, hrun⟩ :=
        Option.isSome_iff_exists.mp (ih (keyHandler_inv hkeep h hkey).1 hok₂)
      simp [run, hkey, hrun]

/-- Every run of keys from the drawn root menu refines the path in the tree, and with callbacks that
    do not change the handler list it goes to its end. -/
theorem menu_refines_path (P : Program σ) (hkeep : KeepsMenu P)
    (htree : MenuTree P.menus 128 (fun _ => True) maxMenuDepth root) (lineStart lineEnd : Nat)
    (hmenu : w.menu = menuCtor .zero root lineStart lineEnd) :
    ∃ w₁, drawMenu P w = some w₁ ∧ w₁.path = [(root, 0)] ∧
      ∀ fuel keys, Guarded (keyHandler P fuel) (PathLaw P fuel) w₁ keys ∧
        (KeepsHandlers P → HandlersOk w → maxHandlers ≤ fuel →
          (run (keyHandler P fuel) w₁ keys).isSome) := by
  obtain ⟨hinv, hpath⟩ := menuInv_ctor htree hmenu
  obtain ⟨w₁, hdraw⟩ := Option.isSome_iff_exists.mp (hinv.draw_total (by decide))
  obtain ⟨hinv₁, hcounted₁, hsame⟩ := hinv.draw hdraw
  refine ⟨w₁, hdraw, hsame.trans hpath, fun fuel keys => ⟨?_, ?_⟩⟩
  · have hlaw : ∀ w k, MenuInv P 128 (fun _ => True) w ∧ Counted P w → True →
        PathLaw P fuel w k := by
      rintro w₂ k ⟨h, hcounted⟩ -
      refine ⟨h.onPath hcounted, fun w₃ offers hkey => ?_⟩
      obtain ⟨h', hcounted', hpath'⟩ := keyHandler_inv hkeep h hkey
      exact ⟨h'.onPath hcounted', hpath' (Nat.le_refl 128)⟩
    have hkeys : ∀ w k w' offers, MenuInv P 128 (fun _ => True) w ∧ Counted P w → True →
        keyHandler P fuel w k = some (w', offers) →
          MenuInv P 128 (fun _ => True) w' ∧ Counted P w' := by
      rintro w₂ k w₃ offers ⟨h, -⟩ - hkey
      obtain ⟨h', hcounted', -⟩ := keyHandler_inv hkeep h hkey
      exact ⟨h', hcounted'⟩
    exact Guarded.imp hlaw hkeys ⟨hinv₁, hcounted₁⟩ (guarded_true w₁ keys)
  · intro hquiet hok hfuel
    exact keys_total hkeep hquiet (by decide) hfuel hinv₁ (hok.draw hdraw) keys

end Runs

/-! ### A menu of nested applications -/

/-- Menus 0, 1 and 2 have one `TYPE_EVT_HDL` entry each, which leads to the next menu. Callbacks
    consume all events and do nothing. -/
def nestedApps : Program Unit :=
  { menus := fun menu i =>
      if menu < 3 ∧ i = 0 then .evtHdl (some ⟨[65], by decide⟩) (menu + 1) (some (menu + 1))
      else .dummy none
    enumText := fun _ _ => ⟨[], by decide⟩
    call := fun _ _ _ w => (1, w)
    exec := fun _ w => w
    sys := 0 }

/-- The text of an entry. -/
def letterA : CStr := ⟨[65], by decide⟩

/-- Everything zeroed, with the menu constructed over root 0 and the base handler 9 added. -/
def nestedAppsWorld : World Unit :=
  { menu := menuCtor .zero 0 1 5
    oled := ⟨fun _ => 0, fun _ => 0⟩
    handlers := evtHandlerAddhandler .zero (some 9)
    opened := fun _ _ => false
    drops := ⟨fun _ => ⟨0, 0, 0, 0⟩, fun _ => 0⟩
    buf := fun _ => 0
    rest := () }

theorem nestedApps_keepsMenu : KeepsMenu nestedApps :=
  ⟨fun _ _ _ w => .refl w, fun _ w => .refl w⟩

theorem nestedApps_keepsHandlers : KeepsHandlers nestedApps :=
  ⟨fun _ _ _ _ => rfl, fun _ _ => rfl⟩

theorem nestedApps_tree {maxLen : Nat} (hlen : 1 ≤ maxLen) {ok : MenuEntry → Prop}
    (hok : ∀ menu, ok (.evtHdl (some ⟨[65], by decide⟩) (menu + 1) (some (menu + 1)))) :
    ∀ (d menu levels : Nat), menu + d = 3 → d < levels →
      MenuTree nestedApps.menus maxLen ok levels menu
  | _, _, 0, _, hlevels => absurd hlevels (Nat.not_lt_zero _)
  | 0, menu, levels + 1, hmenu, _ => by
      refine ⟨0, Nat.zero_le _, ⟨fun i hi => absurd hi (Nat.not_lt_zero i), ?_⟩,
        fun i hi => absurd hi (Nat.not_lt_zero i)⟩
      simp [nestedApps, show ¬ menu < 3 by omega]
  | d + 1, menu, levels + 1, hmenu, hlevels => by
      have hentry : nestedApps.menus menu 0 =
          .evtHdl (some ⟨[65], by decide⟩) (menu + 1) (some (menu + 1)) := by
        simp [nestedApps, show menu < 3 by omega]
      refine ⟨1, hlen, ⟨fun i hi => ?_, by simp [nestedApps]⟩, fun i hi => ?_⟩
      · have hzero : i = 0 := by omega
        subst hzero
        rw [hentry]
        simp [MenuEntry.text]
      · have hzero : i = 0 := by omega
        subst hzero
        rw [hentry]
        refine ⟨hok menu, fun next hnext => ?_⟩
        have hnext' : menu + 1 = next := Option.some.inj hnext
        subst hnext'
        exact nestedApps_tree hlen hok d (menu + 1) levels (by omega) (by omega)

/-- Entering and leaving the first application. -/
theorem menu_refines_path_enter_leave :
    ∃ w₁, drawMenu nestedApps nestedAppsWorld = some w₁ ∧ w₁.path = [(0, 0)] ∧
      Guarded (keyHandler nestedApps 3) (PathLaw nestedApps 3) w₁ [keyRight, keyLeft] ∧
      (run (keyHandler nestedApps 3) w₁ [keyRight, keyLeft]).isSome := by
  obtain ⟨w₁, hdraw, hpath, hruns⟩ := menu_refines_path nestedApps nestedApps_keepsMenu
    (nestedApps_tree (by decide) (fun _ => trivial) 3 0 maxMenuDepth rfl (by decide)) 1 5
    (rfl : nestedAppsWorld.menu = _)
  obtain ⟨hlaw, hreturns⟩ := hruns 3 [keyRight, keyLeft]
  refine ⟨w₁, hdraw, hpath, hlaw, hreturns nestedApps_keepsHandlers ?_ (Nat.le_refl 3)⟩
  exact ⟨_, addhandler_registered registered_zero 9⟩

end RfPirate
