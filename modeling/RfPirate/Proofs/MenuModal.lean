/-
Module: RfPirate.Proofs.MenuModal
Layer: Proofs
Purpose: An open dropdown is modal. The flags of the entries are kept apart from the stack of the
  menu; the invariant that ties them is that an entry of the tree is open only under the cursor.
  While one is, a key closes it or changes its own data, and nothing else.
Main exports: TreeEntry, OpenAt, OneOpen, NoSharing, KeepsEntries, DropEffect, ModalLaw,
  dropdown_modal
-/
import RfPirate.Proofs.Dropdown

namespace RfPirate

open Lib Lib.Machine

/-! ### The entries of a tree -/

section Tree

variable {σ : Type*} (P : Program σ) (root : MenuPtr)

/-- The menus of the tree under a root. -/
inductive InTree : MenuPtr → Prop where
  | root : InTree root
  | enter {menu next : MenuPtr} {n i : Nat} (menu_mem : InTree menu)
      (isMenu : IsMenu P.menus menu n) (lt : i < n) (sub : (P.menus menu i).next? = some next) :
      InTree next

/-- Entry `i` of `menu` is in the tree. -/
structure TreeEntry (menu : MenuPtr) (i : Nat) : Prop where
  menu_mem : InTree P root menu
  lt : ∃ n, IsMenu P.menus menu n ∧ i < n

/-- The entry is a dropdown whose flag is set. -/
def OpenAt (w : World σ) (menu : MenuPtr) (i : Nat) : Prop :=
  (P.menus menu i).isDropdown = true ∧ w.opened menu i = true

/-- An entry of the tree is open only under the cursor of the current menu. So at most one is. -/
def OneOpen (w : World σ) : Prop :=
  ∀ menu i, TreeEntry P root menu i → OpenAt P w menu i → (menu, i) = w.cur.level

/-- The values of two dropdowns are kept apart: an index in the dropdown itself, a number where the
    dropdown points to. Two enumerations may point to the same strings. -/
def Apart (m : DropMem) (type : DropType) (d : DropPtr) (type' : DropType) (d' : DropPtr) : Prop :=
  d ≠ d' ∧ (type ≠ typeDropEnum → type' ≠ typeDropEnum → (m.drops d).data ≠ (m.drops d').data)

/-- No two entries of the tree share dropdown data. -/
def NoSharing (m : DropMem) : Prop :=
  ∀ menu i menu' i' text d type text' d' type',
    TreeEntry P root menu i → TreeEntry P root menu' i' → (menu', i') ≠ (menu, i) →
    P.menus menu i = .dropdown text d type → P.menus menu' i' = .dropdown text' d' type' →
    Apart m type d type' d'

end Tree

/-! ### What leaves the entries alone -/

section SameEntries

variable {σ : Type*} {w w' w'' : World σ}

/-- The flags of the entries and the pointers to their data are the same in both worlds. -/
structure SameEntries (w w' : World σ) : Prop where
  opened : w'.opened = w.opened
  data : ∀ d, (w'.drops.drops d).data = (w.drops.drops d).data

/-- Callbacks and exec functions do not touch menu entries. -/
structure KeepsEntries (P : Program σ) : Prop where
  call : ∀ cb event data w, SameEntries w (P.call cb event data w).2
  exec : ∀ f w, SameEntries w (P.exec f w)

namespace SameEntries

theorem refl (w : World σ) : SameEntries w w := ⟨rfl, fun _ => rfl⟩

theorem trans (h : SameEntries w w') (h' : SameEntries w' w'') : SameEntries w w'' :=
  ⟨h'.opened.trans h.opened, fun d => (h'.data d).trans (h.data d)⟩

/-- A traversal of the handlers leaves the entries alone. -/
theorem syncevent {P : Program σ} (hkeep : KeepsEntries P) {event : UInt8} {data : UInt16}
    {fuel : Nat} {offers : List Offer}
    (h : evtHandlerSyncevent P.callbacks event data fuel w = some (w', offers)) :
    SameEntries w w' :=
  syncevent_keeps (fun cb w₁ h₁ => h₁.trans (hkeep.call cb event data w₁)) h (refl w)

end SameEntries

end SameEntries

/-! ### The data of one dropdown -/

/-- What the operations of a dropdown can make of the memory. -/
inductive DropEffect (type : DropType) (d : DropPtr) (m : DropMem) : DropMem → Prop where
  | same : DropEffect type d m m
  | idx (kind : type = typeDropEnum) (idx : UInt8) : DropEffect type d m (m.setIdx d idx)
  | num (kind : type ≠ typeDropEnum) (num : UInt16) : DropEffect type d m (m.setNum d num)

section DropEffect

variable {type type' : DropType} {d d' : DropPtr} {m m' : DropMem} {text : Option CStr}

theorem increment_effect : DropEffect type d m ((MenuEntry.dropdown text d type).increment m) := by
  simp only [MenuEntry.increment]
  split
  · rename_i htype
    split
    · exact .same
    · exact .idx htype _
  · rename_i htype
    split
    · split
      · exact .same
      · exact .num htype _
    · exact .same

theorem decrement_effect : DropEffect type d m ((MenuEntry.dropdown text d type).decrement m) := by
  simp only [MenuEntry.decrement]
  split
  · rename_i htype
    split
    · exact .same
    · exact .idx htype _
  · rename_i htype
    split
    · split
      · exact .same
      · exact .num htype _
    · exact .same

theorem initialize_effect :
    DropEffect type d m ((MenuEntry.dropdown text d type).initializeEntry m) := by
  simp only [MenuEntry.initializeEntry]
  split
  · rename_i htype
    split
    · exact .idx htype _
    · exact .same
  · rename_i htype
    split
    · split
      · exact .num htype _
      · exact .same
    · exact .same

namespace DropEffect

theorem data (h : DropEffect type d m m') (d' : DropPtr) :
    (m'.drops d').data = (m.drops d').data := by
  cases h with
  | same => rfl
  | num kind num => rfl
  | idx kind idx =>
      by_cases hd : d' = d
      · rw [hd, setIdx_drops]
      · show (Function.update m.drops d _ d').data = _
        rw [Function.update_of_ne hd]

/-- The value of a dropdown that shares nothing with this one stays. -/
theorem value_apart (h : DropEffect type d m m') (hapart : Apart m type d type' d') :
    dropValue type' d' m' = dropValue type' d' m := by
  obtain ⟨hd, hdata⟩ := hapart
  cases h with
  | same => rfl
  | idx kind idx =>
      have hdrop : (m.setIdx d idx).drops d' = m.drops d' :=
        Function.update_of_ne (Ne.symm hd) _ _
      have hnum : (m.setIdx d idx).num d' = m.num d' := by
        rw [DropMem.num, hdrop]
        rfl
      rw [dropValue, dropValue, hdrop, hnum]
  | num kind num =>
      simp only [dropValue]
      by_cases htype : type' = typeDropEnum
      · rw [if_pos htype, if_pos htype]
        rfl
      · have hnum : (m.setNum d num).num d' = m.num d' :=
          Function.update_of_ne (Ne.symm (hdata kind htype)) _ _
        rw [if_neg htype, if_neg htype, hnum]

end DropEffect

end DropEffect

theorem NoSharing.congr {σ : Type*} {P : Program σ} {root : MenuPtr} {m m' : DropMem}
    (h : NoSharing P root m) (hdata : ∀ d, (m'.drops d).data = (m.drops d).data) :
    NoSharing P root m' := by
  intro menu i menu' i' text d type text' d' type' hmem hmem' hne hentry hentry'
  obtain ⟨hd, hapart⟩ := h menu i menu' i' text d type text' d' type' hmem hmem' hne hentry hentry'
  refine ⟨hd, fun htype htype' => ?_⟩
  rw [hdata, hdata]
  exact hapart htype htype'

/-! ### Keys -/

section Keys

variable {σ : Type*} {P : Program σ} {root : MenuPtr} {fuel : Nat} {w w' : World σ} {k : UInt8}
  {offers : List Offer}

theorem entry_of_onDropdown {b : Bool} (h : P.onDropdown w b = true) :
    ∃ text d type, P.entry w = .dropdown text d type := by
  rw [Program.onDropdown, Bool.and_eq_true] at h
  cases hentry : P.entry w with
  | dropdown text d type => exact ⟨text, d, type, rfl⟩
  | dummy _ => simp [hentry, MenuEntry.isDropdown] at h
  | branch _ _ => simp [hentry, MenuEntry.isDropdown] at h
  | exec _ _ => simp [hentry, MenuEntry.isDropdown] at h
  | evtHdl _ _ _ => simp [hentry, MenuEntry.isDropdown] at h

theorem onDropdown_iff {b : Bool} :
    P.onDropdown w b = true ↔
      (P.entry w).isDropdown = true ∧ w.opened w.cur.menu w.cur.selected = b := by
  rw [Program.onDropdown, Bool.and_eq_true, beq_iff_eq]

/-- While the dropdown under the cursor is open, `KEY_LEFT` clears its flag, and every other key
    changes its data only. -/
inductive OpenEffect (w w' : World σ) (type : DropType) (d : DropPtr) (k : UInt8) : Prop where
  | close (left : k = keyLeft) (eq : w' = w.setOpened false) : OpenEffect w w' type d k
  | own {m : DropMem} (key : k ≠ keyLeft) (effect : DropEffect type d w.drops m)
      (eq : w' = { w with drops := m }) : OpenEffect w w' type d k

theorem KeyEffect.of_open {text : Option CStr} {d : DropPtr} {type : DropType}
    (hkey : KeyEffect P fuel w w' k offers) (hopen : P.onDropdown w true = true)
    (hentry : P.entry w = .dropdown text d type) : OpenEffect w w' type d k := by
  cases hkey with
  | up eq =>
      rw [keyUpCase, if_pos hopen, hentry] at eq
      exact .own (by decide) increment_effect eq
  | down eq =>
      rw [keyDownCase, if_pos hopen, hentry] at eq
      exact .own (by decide) decrement_effect eq
  | left case =>
      cases keyLeftCase_effect case with
      | close opened eq => exact .close rfl eq
      | root closed idx eq => exact absurd (hopen.symm.trans closed) (by decide)
      | leave closed idx unset eq => exact absurd (hopen.symm.trans closed) (by decide)
      | leaveApp closed idx set stop eq => exact absurd (hopen.symm.trans closed) (by decide)
  | right case =>
      cases keyRightCase_effect case with
      | openDrop closed eq =>
          have hboth := (onDropdown_iff.mp hopen).2.symm.trans (onDropdown_iff.mp closed).2
          exact absurd hboth (by decide)
      | enter entry eq => cases hentry.symm.trans entry
      | enterApp entry start sub eq => cases hentry.symm.trans entry
      | nothing leaf eq => exact .own (by decide) .same eq
  | select eq =>
      simp only [keySelectCase, hentry] at eq
      exact .own (by decide) .same eq
  | other up down left right eq => exact .own left .same eq

/-- While the entry under the cursor is no open dropdown, a key leaves the flags alone, or opens the
    entry under the cursor. -/
inductive ClosedEffect (w w' : World σ) : Prop where
  | flags (same : SameEntries w w') : ClosedEffect w w'
  | opens (opened : w'.opened = (w.setOpened true).opened) (cur : w'.cur = w.cur)
      (data : ∀ d, (w'.drops.drops d).data = (w.drops.drops d).data) : ClosedEffect w w'

theorem KeyEffect.of_closed (hkeep : KeepsEntries P) (hkey : KeyEffect P fuel w w' k offers)
    (hclosed : P.onDropdown w true = false) : ClosedEffect w w' := by
  cases hkey with
  | up eq =>
      rw [keyUpCase, hclosed, if_neg Bool.false_ne_true] at eq
      subst eq
      exact .flags ⟨rfl, fun _ => rfl⟩
  | down eq =>
      rw [keyDownCase, hclosed, if_neg Bool.false_ne_true] at eq
      subst eq
      split <;> exact .flags ⟨rfl, fun _ => rfl⟩
  | left case =>
      cases keyLeftCase_effect case with
      | close opened eq => exact absurd (opened.symm.trans hclosed) (by decide)
      | root closed idx eq =>
          subst eq
          exact .flags (.refl _)
      | leave closed idx unset eq =>
          subst eq
          exact .flags ⟨rfl, fun _ => rfl⟩
      | leaveApp closed idx set stop eq =>
          subst eq
          have hstop : SameEntries w (stopApp w) := ⟨rfl, fun _ => rfl⟩
          obtain ⟨hopened, hdata⟩ := hstop.trans (SameEntries.syncevent hkeep stop)
          exact .flags ⟨hopened, hdata⟩
  | right case =>
      cases keyRightCase_effect case with
      | openDrop closed eq =>
          subst eq
          obtain ⟨text, d, type, hentry⟩ := entry_of_onDropdown closed
          have hentry' : P.entry (w.setOpened true) = .dropdown text d type := hentry
          refine .opens rfl rfl fun d' => ?_
          show (((P.entry (w.setOpened true)).initializeEntry w.drops).drops d').data = _
          rw [hentry']
          exact initialize_effect.data d'
      | enter entry eq =>
          subst eq
          exact .flags ⟨rfl, fun _ => rfl⟩
      | @enterApp _ _ _ cb _ _ entry start sub eq =>
          subst eq
          have hstart : SameEntries w (startApp cb w) := ⟨rfl, fun _ => rfl⟩
          obtain ⟨hopened, hdata⟩ := hstart.trans (SameEntries.syncevent hkeep start)
          exact .flags ⟨hopened, hdata⟩
      | nothing leaf eq =>
          subst eq
          exact .flags (.refl _)
  | select eq =>
      subst eq
      unfold keySelectCase
      split
      · exact .flags (hkeep.exec _ w)
      · exact .flags (.refl w)
  | other up down left right eq =>
      subst eq
      exact .flags (.refl _)

end Keys

/-! ### Runs -/

section Runs

variable {σ : Type*} {P : Program σ} {root : MenuPtr} {fuel : Nat} {w w' : World σ} {k : UInt8}
  {offers : List Offer}

/-- What a key has to do while entry `i` of `menu` is open: the path with its cursors, the handlers
    and the values of all other dropdowns of the tree stay, and `KEY_LEFT` closes the entry and
    leaves its value alone as well. -/
structure Modal (P : Program σ) (root : MenuPtr) (w w' : World σ) (k : UInt8) (menu : MenuPtr)
    (i : Nat) : Prop where
  path : w'.path = w.path
  level : w'.cur.level = w.cur.level
  handlers : w'.handlers = w.handlers
  others : ∀ menu' i' text d type, TreeEntry P root menu' i' → (menu', i') ≠ (menu, i) →
    P.menus menu' i' = .dropdown text d type →
      dropValue type d w'.drops = dropValue type d w.drops
  opened : OpenAt P w' menu i ↔ k ≠ keyLeft
  value : k = keyLeft → w'.drops = w.drops

/-- What a key has to satisfy: before and after it, no entry of the tree is open but the one under
    the cursor, and while one is, it is modal. -/
def ModalLaw (P : Program σ) (fuel : Nat) (root : MenuPtr) (w : World σ) (k : UInt8) : Prop :=
  OneOpen P root w ∧ ∀ w' offers, keyHandler P fuel w k = some (w', offers) →
    OneOpen P root w' ∧
      ∀ menu i, TreeEntry P root menu i → OpenAt P w menu i → Modal P root w w' k menu i

/-- What holds between the keys. -/
structure ModalInv (P : Program σ) (root : MenuPtr) (w : World σ) : Prop where
  oneOpen : OneOpen P root w
  noSharing : NoSharing P root w.drops

theorem DrawKeeps.modalInv (h : DrawKeeps w w') (hinv : ModalInv P root w) :
    ModalInv P root w' := by
  refine ⟨fun menu i hmem hopen => ?_, ?_⟩
  · rw [h.level]
    rw [OpenAt, h.opened] at hopen
    exact hinv.oneOpen menu i hmem hopen
  · rw [h.drops]
    exact hinv.noSharing

theorem DrawKeeps.modal {w₁ : World σ} {menu : MenuPtr} {i : Nat} (h : DrawKeeps w₁ w')
    (hmodal : Modal P root w w₁ k menu i) : Modal P root w w' k menu i := by
  refine ⟨h.path.trans hmodal.path, h.level.trans hmodal.level, h.handlers.trans hmodal.handlers,
    ?_, ?_, fun hleft => h.drops.trans (hmodal.value hleft)⟩
  · rw [h.drops]
    exact hmodal.others
  · rw [OpenAt, h.opened]
    exact hmodal.opened

theorem opened_setOpened_of_ne (w : World σ) (b : Bool) {menu : MenuPtr} {i : Nat}
    (hne : (menu, i) ≠ w.cur.level) : (w.setOpened b).opened menu i = w.opened menu i := by
  show Function.update w.opened w.cur.menu
    (Function.update (w.opened w.cur.menu) w.cur.selected b) menu i = w.opened menu i
  by_cases hmenu : menu = w.cur.menu
  · subst hmenu
    have hi : i ≠ w.cur.selected := fun h => hne (congrArg (Prod.mk w.cur.menu) h)
    rw [Function.update_self, Function.update_of_ne hi]
  · rw [Function.update_of_ne hmenu]

/-- An open entry of the tree is the one under the cursor. -/
theorem OneOpen.onDropdown (h : OneOpen P root w) {menu : MenuPtr} {i : Nat}
    (hmem : TreeEntry P root menu i) (hopen : OpenAt P w menu i) :
    P.onDropdown w true = true := by
  have hlevel := h menu i hmem hopen
  obtain ⟨rfl, rfl⟩ := Prod.mk.inj hlevel
  exact onDropdown_iff.mpr hopen

/-- A key while the dropdown under the cursor is open. -/
theorem OpenEffect.inv {text : Option CStr} {d : DropPtr} {type : DropType}
    (h : OpenEffect w w' type d k) (hinv : ModalInv P root w)
    (hopen : P.onDropdown w true = true) (hentry : P.entry w = .dropdown text d type) :
    ModalInv P root w' ∧ (TreeEntry P root w.cur.menu w.cur.selected →
      Modal P root w w' k w.cur.menu w.cur.selected) := by
  cases h with
  | close left eq =>
      subst eq
      have hclosed : ∀ menu i, TreeEntry P root menu i → ¬ OpenAt P (w.setOpened false) menu i := by
        rintro menu i hmem ⟨hdrop, hflag⟩
        by_cases hlevel : (menu, i) = w.cur.level
        · obtain ⟨rfl, rfl⟩ := Prod.mk.inj hlevel
          exact absurd ((opened_setOpened w false).symm.trans hflag) (by decide)
        · rw [opened_setOpened_of_ne w false hlevel] at hflag
          exact hlevel (hinv.oneOpen menu i hmem ⟨hdrop, hflag⟩)
      exact ⟨⟨fun menu i hmem hflag => absurd hflag (hclosed menu i hmem), hinv.noSharing⟩,
        fun hmem => ⟨rfl, rfl, rfl, fun _ _ _ _ _ _ _ _ => rfl,
          iff_of_false (hclosed _ _ hmem) (not_not.mpr left), fun _ => rfl⟩⟩
  | @own m key effect eq =>
      subst eq
      refine ⟨⟨hinv.oneOpen, hinv.noSharing.congr effect.data⟩, fun hmem => ⟨rfl, rfl, rfl, ?_,
        iff_of_true (onDropdown_iff.mp hopen) key, fun hleft => absurd hleft key⟩⟩
      intro menu' i' text' d' type' hmem' hne hentry'
      exact effect.value_apart
        (hinv.noSharing _ _ _ _ _ _ _ _ _ _ hmem hmem' hne hentry hentry')

/-- A key while the entry under the cursor is no open dropdown: no entry of the tree is open. -/
theorem ClosedEffect.inv (h : ClosedEffect w w') (hinv : ModalInv P root w)
    (hclosed : P.onDropdown w true = false) : ModalInv P root w' := by
  have hnone : ∀ menu i, TreeEntry P root menu i → ¬ OpenAt P w menu i := by
    intro menu i hmem hopen
    exact absurd ((hinv.oneOpen.onDropdown hmem hopen).symm.trans hclosed) (by decide)
  cases h with
  | flags same =>
      refine ⟨fun menu i hmem hopen => ?_, hinv.noSharing.congr same.data⟩
      rw [OpenAt, same.opened] at hopen
      exact absurd hopen (hnone menu i hmem)
  | opens opened cur data =>
      refine ⟨fun menu i hmem hopen => ?_, hinv.noSharing.congr data⟩
      rw [cur]
      by_contra hlevel
      rw [OpenAt, opened, opened_setOpened_of_ne w true hlevel] at hopen
      exact hnone menu i hmem hopen

/-- A key keeps the invariant, and is as the law says. -/
theorem keyHandler_modal (hkeep : KeepsEntries P) (hinv : ModalInv P root w)
    (hkey : keyHandler P fuel w k = some (w', offers)) :
    ModalInv P root w' ∧
      ∀ menu i, TreeEntry P root menu i → OpenAt P w menu i → Modal P root w w' k menu i := by
  obtain ⟨w₁, heffect, hdraw⟩ := keyHandler_effect hkey
  have hdrawn := drawMenu_keeps hdraw
  cases hopen : P.onDropdown w true with
  | true =>
      obtain ⟨text, d, type, hentry⟩ := entry_of_onDropdown hopen
      obtain ⟨hinv₁, hmodal⟩ := (heffect.of_open hopen hentry).inv hinv hopen hentry
      refine ⟨hdrawn.modalInv hinv₁, fun menu i hmem hflag => hdrawn.modal ?_⟩
      obtain ⟨rfl, rfl⟩ := Prod.mk.inj (hinv.oneOpen menu i hmem hflag)
      exact hmodal hmem
  | false =>
      refine ⟨hdrawn.modalInv ((heffect.of_closed hkeep hopen).inv hinv hopen), ?_⟩
      intro menu i hmem hflag
      exact absurd ((hinv.oneOpen.onDropdown hmem hflag).symm.trans hopen) (by decide)

/-- In every run of keys over a tree whose entries are all closed and share no data, an open
    dropdown is under the cursor and modal; and with callbacks that keep the menu and the handlers
    the run goes to its end. -/
theorem dropdown_modal (P : Program σ) (hkeep : KeepsEntries P)
    (htree : MenuTree P.menus 128 (fun _ => True) maxMenuDepth root) (lineStart lineEnd : Nat)
    (hmenu : w.menu = menuCtor .zero root lineStart lineEnd)
    (hclosed : ∀ menu i, TreeEntry P root menu i → ¬ OpenAt P w menu i)
    (hshare : NoSharing P root w.drops) :
    ∃ w₁, drawMenu P w = some w₁ ∧
      ∀ fuel keys, Guarded (keyHandler P fuel) (ModalLaw P fuel root) w₁ keys ∧
        (KeepsMenu P → KeepsHandlers P → HandlersOk w → maxHandlers ≤ fuel →
          (run (keyHandler P fuel) w₁ keys).isSome) := by
  obtain ⟨htreeInv, -⟩ := menuInv_ctor htree hmenu
  obtain ⟨w₁, hdraw⟩ := Option.isSome_iff_exists.mp (htreeInv.draw_total (by decide))
  have hdrawn := drawMenu_keeps hdraw
  have hinv : ModalInv P root w :=
    ⟨fun menu i hmem hopen => absurd hopen (hclosed menu i hmem), hshare⟩
  refine ⟨w₁, hdraw, fun fuel keys => ⟨?_, fun hstack hquiet hok hfuel => ?_⟩⟩
  · have hlaw : ∀ w k, ModalInv P root w → True → ModalLaw P fuel root w k := by
      intro w₂ k h _
      refine ⟨h.oneOpen, fun w₃ offers hkey => ?_⟩
      obtain ⟨h', hmodal⟩ := keyHandler_modal hkeep h hkey
      exact ⟨h'.oneOpen, hmodal⟩
    have hkeys : ∀ w k w' offers, ModalInv P root w → True →
        keyHandler P fuel w k = some (w', offers) → ModalInv P root w' :=
      fun _ _ _ _ h _ hkey => (keyHandler_modal hkeep h hkey).1
    exact Guarded.imp hlaw hkeys (hdrawn.modalInv hinv) (guarded_true w₁ keys)
  · exact keys_total hstack hquiet (by decide) hfuel (htreeInv.draw hdraw).1 (hok.draw hdraw) keys

end Runs

/-! ### A menu of two dropdowns -/

/-- A number and an enumeration. -/
def twoDrops : Program Unit :=
  { nestedApps with
    menus := fun _ i =>
      if i = 0 then .dropdown (some letterA) 0 typeDropNum
      else if i = 1 then .dropdown (some letterA) 1 typeDropEnum
      else .dummy none }

theorem twoDrops_isMenu (menu : MenuPtr) : IsMenu twoDrops.menus menu 2 := by
  refine ⟨fun i hi => ?_, rfl⟩
  obtain rfl | rfl : i = 0 ∨ i = 1 := by omega
  · exact nofun
  · exact nofun

theorem twoDrops_entry {root menu : MenuPtr} {i : Nat} (h : TreeEntry twoDrops root menu i) :
    menu = root ∧ i < 2 := by
  obtain ⟨hmenu, n, hn, hlt⟩ := h
  have htwo := hn.unique (twoDrops_isMenu menu)
  refine ⟨?_, htwo ▸ hlt⟩
  cases hmenu with
  | root => rfl
  | @enter menu' _ n' j menu_mem isMenu lt sub =>
      have hj := isMenu.unique (twoDrops_isMenu menu')
      obtain rfl | rfl : j = 0 ∨ j = 1 := by omega
      · exact absurd sub nofun
      · exact absurd sub nofun

/-- Opening the number, changing it, closing it and going down. -/
theorem twoDrops_modal :
    ∃ w₁, drawMenu twoDrops (dropWorld false 1) = some w₁ ∧
      Guarded (keyHandler twoDrops 3) (ModalLaw twoDrops 3 0) w₁
        [keyRight, keyUp, keyLeft, keyDown] ∧
      (run (keyHandler twoDrops 3) w₁ [keyRight, keyUp, keyLeft, keyDown]).isSome := by
  have htree : MenuTree twoDrops.menus 128 (fun _ => True) maxMenuDepth 0 := by
    refine ⟨2, by decide, twoDrops_isMenu 0, fun i hi => ⟨trivial, fun next hnext => ?_⟩⟩
    obtain rfl | rfl : i = 0 ∨ i = 1 := by omega
    · exact absurd hnext nofun
    · exact absurd hnext nofun
  have hshare : NoSharing twoDrops 0 (dropWorld false 1).drops := by
    intro menu i menu' i' text d type text' d' type' hmem hmem' hne hentry hentry'
    obtain ⟨rfl, hi⟩ := twoDrops_entry hmem
    obtain ⟨rfl, hi'⟩ := twoDrops_entry hmem'
    obtain ⟨rfl, rfl⟩ | ⟨rfl, rfl⟩ : i = 0 ∧ i' = 1 ∨ i = 1 ∧ i' = 0 := by
      have hne' : i' ≠ i := fun h => hne (congrArg (Prod.mk 0) h)
      omega
    · cases hentry
      cases hentry'
      exact ⟨by decide, fun _ henum => absurd rfl henum⟩
    · cases hentry
      cases hentry'
      exact ⟨by decide, fun henum => absurd rfl henum⟩
  obtain ⟨w₁, hdraw, hruns⟩ := dropdown_modal twoDrops
    ⟨fun _ _ _ w => .refl w, fun _ w => .refl w⟩ htree 1 5
    (rfl : (dropWorld false 1).menu = _) (fun _ _ _ h => absurd h.2 Bool.false_ne_true) hshare
  obtain ⟨hlaw, hreturns⟩ := hruns 3 [keyRight, keyUp, keyLeft, keyDown]
  refine ⟨w₁, hdraw, hlaw, hreturns ⟨fun _ _ _ w => .refl w, fun _ w => .refl w⟩
    ⟨fun _ _ _ _ => rfl, fun _ _ => rfl⟩ ?_ (Nat.le_refl 3)⟩
  exact ⟨_, addhandler_registered registered_zero 9⟩

end RfPirate
