/-
Module: RfPirate.Proofs.Dropdown
Layer: Proofs
Purpose: The value of a dropdown under the keys. Numbers stay in their range; the index of an
  enumeration is held against its minimum by no operation but the one that sets it there. A number
  at its maximum cannot be decremented any more.
Main exports: dropValue, Declared, upValue, downValue, openValue, AtDropdown, arrowStep,
  dropdown_range, stepping_iff
-/
import RfPirate.Proofs.MenuPath

namespace RfPirate

open Lib Lib.Machine

/-! ### Values -/

/-- The value of a dropdown: the index of an enumeration, or the number it points to. -/
def dropValue (type : DropType) (d : DropPtr) (m : DropMem) : Nat :=
  if type = typeDropEnum then (m.drops d).idx.toNat else (m.num d).toNat

/-- A dropdown that is an enumeration or a number, declared with the range from `lo` to `hi`. The
    index of an enumeration is a byte. -/
structure Declared (type : DropType) (d : DropPtr) (lo hi : Nat) (m : DropMem) : Prop where
  kind : type = typeDropEnum ∨ type = typeDropNum
  min : (m.drops d).min.toNat = lo
  max : (m.drops d).max.toNat = hi
  le : lo ≤ hi
  byte : type = typeDropEnum → hi ≤ 255

def InRange (lo hi v : Nat) : Prop := lo ≤ v ∧ v ≤ hi

/-- What incrementing makes of a value. -/
def upValue (hi v : Nat) : Nat := if v < hi then v + 1 else v

/-- What decrementing makes of a value: an index goes down to 0; a number that is at either end of
    its range stays. -/
def downValue (type : DropType) (lo hi v : Nat) : Nat :=
  if type = typeDropEnum then v - 1 else if v ≤ lo ∨ hi ≤ v then v else v - 1

/-- What opening makes of a value: an index is held against the maximum only. -/
def openValue (type : DropType) (lo hi v : Nat) : Nat :=
  if type = typeDropEnum then if hi < v then lo else v else if v < lo ∨ hi < v then lo else v

section Values

variable {type : DropType} {d : DropPtr} {lo hi : Nat} {m : DropMem} {text : Option CStr}

theorem typeDropNum_ne : typeDropNum ≠ typeDropEnum := by decide

theorem setIdx_drops (m : DropMem) (d : DropPtr) (idx : UInt8) :
    (m.setIdx d idx).drops d = { m.drops d with idx := idx } := Function.update_self _ _ _

theorem setNum_num (m : DropMem) (d : DropPtr) (num : UInt16) : (m.setNum d num).num d = num :=
  Function.update_self _ _ _

theorem Declared.setIdx (h : Declared type d lo hi m) (idx : UInt8) :
    Declared type d lo hi (m.setIdx d idx) := by
  refine ⟨h.kind, ?_, ?_, h.le, h.byte⟩
  · rw [setIdx_drops]
    exact h.min
  · rw [setIdx_drops]
    exact h.max

theorem Declared.setNum (h : Declared type d lo hi m) (num : UInt16) :
    Declared type d lo hi (m.setNum d num) := ⟨h.kind, h.min, h.max, h.le, h.byte⟩

theorem Declared.increment (h : Declared type d lo hi m) (text : Option CStr) :
    Declared type d lo hi ((MenuEntry.dropdown text d type).increment m) ∧
      dropValue type d ((MenuEntry.dropdown text d type).increment m) =
        upValue hi (dropValue type d m) := by
  obtain rfl | rfl := h.kind
  · have hbyte := h.byte rfl
    have hge : (m.drops d).idx.toUInt16 ≥ (m.drops d).max ↔ ¬ (m.drops d).idx.toNat < hi := by
      rw [ge_iff_le, UInt16.le_iff_toNat_le, UInt8.toNat_toUInt16, h.max, Nat.not_lt]
    simp only [MenuEntry.increment, if_true, hge, dropValue, upValue]
    by_cases hlt : (m.drops d).idx.toNat < hi
    · rw [if_neg (not_not.mpr hlt), if_pos hlt, setIdx_drops]
      refine ⟨h.setIdx _, ?_⟩
      have hone : (1 : UInt8).toNat = 1 := rfl
      rw [UInt8.toNat_add, hone]
      omega
    · rw [if_pos hlt, if_neg hlt]
      exact ⟨h, rfl⟩
  · have hge : m.num d ≥ (m.drops d).max ↔ ¬ (m.num d).toNat < hi := by
      rw [ge_iff_le, UInt16.le_iff_toNat_le, h.max, Nat.not_lt]
    simp only [MenuEntry.increment, typeDropNum_ne, if_false, if_true, hge, dropValue, upValue]
    by_cases hlt : (m.num d).toNat < hi
    · rw [if_neg (not_not.mpr hlt), if_pos hlt, setNum_num]
      refine ⟨h.setNum _, ?_⟩
      have hone : (1 : UInt16).toNat = 1 := rfl
      have hmax : hi < 65536 := h.max ▸ (m.drops d).max.toNat_lt
      rw [UInt16.toNat_add, hone]
      omega
    · rw [if_pos hlt, if_neg hlt]
      exact ⟨h, rfl⟩

theorem Declared.decrement (h : Declared type d lo hi m) (text : Option CStr) :
    Declared type d lo hi ((MenuEntry.dropdown text d type).decrement m) ∧
      dropValue type d ((MenuEntry.dropdown text d type).decrement m) =
        downValue type lo hi (dropValue type d m) := by
  obtain rfl | rfl := h.kind
  · have hzero : (m.drops d).idx = 0 ↔ (m.drops d).idx.toNat = 0 := UInt8.toNat_inj.symm
    simp only [MenuEntry.decrement, if_true, dropValue, downValue]
    by_cases hidx : (m.drops d).idx = 0
    · rw [if_pos hidx, hzero.mp hidx]
      exact ⟨h, rfl⟩
    · rw [if_neg hidx, setIdx_drops]
      refine ⟨h.setIdx _, ?_⟩
      have hone : (1 : UInt8) ≤ (m.drops d).idx := by
        rw [UInt8.le_iff_toNat_le]
        exact Nat.one_le_iff_ne_zero.mpr (mt hzero.mpr hidx)
      rw [UInt8.toNat_sub_of_le _ _ hone]
      rfl
  · have hends : (m.num d ≤ (m.drops d).min ∨ m.num d ≥ (m.drops d).max) ↔
        ((m.num d).toNat ≤ lo ∨ hi ≤ (m.num d).toNat) := by
      rw [ge_iff_le, UInt16.le_iff_toNat_le, UInt16.le_iff_toNat_le, h.min, h.max]
    simp only [MenuEntry.decrement, typeDropNum_ne, if_false, if_true, hends, dropValue, downValue]
    by_cases hend : (m.num d).toNat ≤ lo ∨ hi ≤ (m.num d).toNat
    · rw [if_pos hend, if_pos hend]
      exact ⟨h, rfl⟩
    · rw [if_neg hend, if_neg hend, setNum_num]
      refine ⟨h.setNum _, ?_⟩
      have hone : (1 : UInt16) ≤ m.num d := by
        rw [UInt16.le_iff_toNat_le]
        have hone' : (1 : UInt16).toNat = 1 := rfl
        omega
      rw [UInt16.toNat_sub_of_le _ _ hone]
      rfl

theorem Declared.initialize (h : Declared type d lo hi m) (text : Option CStr) :
    Declared type d lo hi ((MenuEntry.dropdown text d type).initializeEntry m) ∧
      dropValue type d ((MenuEntry.dropdown text d type).initializeEntry m) =
        openValue type lo hi (dropValue type d m) := by
  obtain rfl | rfl := h.kind
  · have hbyte := h.byte rfl
    have hgt : (m.drops d).idx.toUInt16 > (m.drops d).max ↔ hi < (m.drops d).idx.toNat := by
      rw [gt_iff_lt, UInt16.lt_iff_toNat_lt, UInt8.toNat_toUInt16, h.max]
    simp only [MenuEntry.initializeEntry, if_true, hgt, dropValue, openValue]
    by_cases hout : hi < (m.drops d).idx.toNat
    · rw [if_pos hout, if_pos hout, setIdx_drops]
      refine ⟨h.setIdx _, ?_⟩
      have hle := h.le
      rw [UInt16.toNat_toUInt8, h.min]
      omega
    · rw [if_neg hout, if_neg hout]
      exact ⟨h, rfl⟩
  · have hout : (m.num d < (m.drops d).min ∨ m.num d > (m.drops d).max) ↔
        ((m.num d).toNat < lo ∨ hi < (m.num d).toNat) := by
      rw [gt_iff_lt, UInt16.lt_iff_toNat_lt, UInt16.lt_iff_toNat_lt, h.min, h.max]
    simp only [MenuEntry.initializeEntry, typeDropNum_ne, if_false, if_true, hout, dropValue,
      openValue]
    by_cases hend : (m.num d).toNat < lo ∨ hi < (m.num d).toNat
    · rw [if_pos hend, if_pos hend, setNum_num]
      exact ⟨h.setNum _, h.min⟩
    · rw [if_neg hend, if_neg hend]
      exact ⟨h, rfl⟩

end Values

/-! ### Keys -/

/-- The keys that change the value of an open dropdown. -/
inductive Arrow where
  | up
  | down
deriving DecidableEq, Repr

def Arrow.key : Arrow → UInt8
  | .up => keyUp
  | .down => keyDown

/-- What an arrow makes of a value. -/
def Arrow.value (a : Arrow) (type : DropType) (lo hi v : Nat) : Nat :=
  match a with
  | .up => upValue hi v
  | .down => downValue type lo hi v

section Keys

variable {σ : Type*} {P : Program σ} {fuel : Nat} {w w' : World σ} {offers : List Offer}
  {text : Option CStr} {d : DropPtr} {type : DropType} {lo hi : Nat} {isOpen : Bool}

/-- `Menu::KeyHandler`, as a machine whose labels are the arrows. -/
def arrowStep (P : Program σ) (fuel : Nat) : Machine.Step (World σ) Arrow Offer
  | w, a => keyHandler P fuel w a.key

theorem opened_setOpened (w : World σ) (b : Bool) :
    (w.setOpened b).opened w.cur.menu w.cur.selected = b := by
  show Function.update w.opened w.cur.menu
    (Function.update (w.opened w.cur.menu) w.cur.selected b) w.cur.menu w.cur.selected = b
  rw [Function.update_self, Function.update_self]

/-- The cursor is on a dropdown with the range from `lo` to `hi`, whose flag is `isOpen`. -/
structure AtDropdown (P : Program σ) (text : Option CStr) (d : DropPtr) (type : DropType)
    (lo hi : Nat) (isOpen : Bool) (w : World σ) : Prop where
  entry : P.entry w = .dropdown text d type
  opened : w.opened w.cur.menu w.cur.selected = isOpen
  declared : Declared type d lo hi w.drops

namespace AtDropdown

theorem onDropdown (h : AtDropdown P text d type lo hi isOpen w) (b : Bool) :
    P.onDropdown w b = (isOpen == b) := by
  rw [Program.onDropdown, h.entry, h.opened]
  rfl

theorem setDrops (h : AtDropdown P text d type lo hi isOpen w) {m : DropMem}
    (hm : Declared type d lo hi m) :
    AtDropdown P text d type lo hi isOpen { w with drops := m } := ⟨h.entry, h.opened, hm⟩

/-- Drawing leaves cursor, flag and value alone. -/
theorem draw (h : AtDropdown P text d type lo hi isOpen w) (hdraw : drawMenu P w = some w') :
    AtDropdown P text d type lo hi isOpen w' ∧ w'.drops = w.drops := by
  have hkeeps := drawMenu_keeps hdraw
  obtain ⟨hmenu, hselected⟩ := Prod.mk.inj hkeeps.level
  refine ⟨⟨hkeeps.entry.trans h.entry, ?_, ?_⟩, hkeeps.drops⟩
  · rw [hkeeps.opened, hmenu, hselected]
    exact h.opened
  · rw [hkeeps.drops]
    exact h.declared

/-- An arrow on an open dropdown draws the menu with the new value. -/
theorem arrow (h : AtDropdown P text d type lo hi true w) (fuel : Nat) (a : Arrow) :
    ∃ m, Declared type d lo hi m ∧
      dropValue type d m = a.value type lo hi (dropValue type d w.drops) ∧
      arrowStep P fuel w a = (drawMenu P { w with drops := m }).map (·, []) := by
  have hopen : P.onDropdown w true = true := h.onDropdown true
  cases a with
  | up =>
      obtain ⟨hdecl, hvalue⟩ := h.declared.increment text
      have hcase : keyCase P fuel keyUp w = some ({ w with
          drops := (MenuEntry.dropdown text d type).increment w.drops }, []) := by
        rw [keyCase, if_pos rfl, keyUpCase, if_pos hopen, h.entry]
      exact ⟨_, hdecl, hvalue, keyHandler_of_case hcase⟩
  | down =>
      obtain ⟨hdecl, hvalue⟩ := h.declared.decrement text
      have hcase : keyCase P fuel keyDown w = some ({ w with
          drops := (MenuEntry.dropdown text d type).decrement w.drops }, []) := by
        rw [keyCase, if_neg (by decide), if_pos rfl, keyDownCase, if_pos hopen, h.entry]
      exact ⟨_, hdecl, hvalue, keyHandler_of_case hcase⟩

/-- An arrow on an open dropdown changes its value only. -/
theorem arrow_step (h : AtDropdown P text d type lo hi true w) {a : Arrow}
    (hstep : arrowStep P fuel w a = some (w', offers)) :
    AtDropdown P text d type lo hi true w' ∧
      dropValue type d w'.drops = a.value type lo hi (dropValue type d w.drops) := by
  obtain ⟨m, hm, hvalue, heq⟩ := h.arrow fuel a
  obtain ⟨w₁, hdraw, hw⟩ := Option.map_eq_some_iff.mp (heq.symm.trans hstep)
  obtain ⟨hat, hdrops⟩ := (h.setDrops hm).draw hdraw
  obtain rfl : w₁ = w' := congrArg Prod.fst hw
  exact ⟨hat, by rw [hdrops]; exact hvalue⟩

/-- And it returns where the menu can be drawn, which it then still can. -/
theorem arrow_returns (h : AtDropdown P text d type lo hi true w) (hdraw : (drawMenu P w).isSome)
    (fuel : Nat) (a : Arrow) :
    ∃ w', arrowStep P fuel w a = some (w', []) ∧ (drawMenu P w').isSome := by
  obtain ⟨m, -, -, heq⟩ := h.arrow fuel a
  have hdraw' : (drawMenu P { w with drops := m }).isSome :=
    drawMenu_isSome_mono hdraw rfl fun _ _ h => h
  obtain ⟨w', hw'⟩ := Option.isSome_iff_exists.mp hdraw'
  exact ⟨w', by rw [heq, hw']; rfl, drawMenu_again hw'⟩

/-- `KEY_RIGHT` on a closed dropdown opens it and initializes its value. -/
theorem keyRight_step (h : AtDropdown P text d type lo hi false w)
    (hkey : keyHandler P fuel w keyRight = some (w', offers)) :
    AtDropdown P text d type lo hi true w' ∧
      dropValue type d w'.drops = openValue type lo hi (dropValue type d w.drops) ∧
      (drawMenu P w').isSome := by
  have hcase : keyCase P fuel keyRight w = some ({ w.setOpened true with
      drops := (MenuEntry.dropdown text d type).initializeEntry w.drops }, []) := by
    have hclosed : P.onDropdown w false = true := h.onDropdown false
    have hentry : P.entry (w.setOpened true) = .dropdown text d type := h.entry
    rw [keyCase, if_neg (by decide), if_neg (by decide), if_neg (by decide), if_pos rfl,
      keyRightCase, if_pos hclosed]
    simp only [hentry]
    rfl
  obtain ⟨w₁, hdraw, hw⟩ :=
    Option.map_eq_some_iff.mp ((keyHandler_of_case hcase).symm.trans hkey)
  obtain rfl : w₁ = w' := congrArg Prod.fst hw
  obtain ⟨hdecl, hvalue⟩ := h.declared.initialize text
  have hopen : AtDropdown P text d type lo hi true (w.setOpened true) := by
    exact ⟨h.entry, opened_setOpened w true, h.declared⟩
  obtain ⟨hat, hdrops⟩ := (hopen.setDrops hdecl).draw hdraw
  exact ⟨hat, by rw [hdrops]; exact hvalue, drawMenu_again hdraw⟩

end AtDropdown

/-! ### The range -/

/-- The arrow leaves a value in the range. -/
def RangeLaw (P : Program σ) (fuel : Nat) (type : DropType) (d : DropPtr) (lo hi : Nat)
    (w : World σ) (a : Arrow) : Prop :=
  After (arrowStep P fuel) (fun w' => InRange lo hi (dropValue type d w'.drops)) w a

/-- No index at the minimum is decremented, unless the minimum is 0. -/
def RangeOk (type : DropType) (d : DropPtr) (lo : Nat) (w : World σ) (a : Arrow) : Prop :=
  type = typeDropEnum → a = .down → dropValue type d w.drops = lo → lo = 0

theorem openValue_inRange_iff (type : DropType) (v : Nat) (hle : lo ≤ hi) :
    InRange lo hi (openValue type lo hi v) ↔ (type = typeDropEnum → lo ≤ v) := by
  simp only [openValue, InRange]
  by_cases htype : type = typeDropEnum
  · simp only [htype, if_true, true_imp_iff]
    split <;> omega
  · simp only [htype, if_false, false_imp_iff, iff_true]
    split <;> omega

theorem arrow_inRange_iff {v : Nat} (hv : InRange lo hi v) (a : Arrow) :
    InRange lo hi (a.value type lo hi v) ↔
      (type = typeDropEnum → a = .down → v = lo → lo = 0) := by
  obtain ⟨hlo, hhi⟩ := hv
  cases a with
  | up =>
      simp only [Arrow.value, upValue, InRange, reduceCtorEq, false_imp_iff, imp_true_iff, iff_true]
      split <;> omega
  | down =>
      simp only [Arrow.value, downValue, InRange, true_imp_iff]
      by_cases htype : type = typeDropEnum
      · simp only [htype, if_true, true_imp_iff]
        omega
      · simp only [htype, if_false, false_imp_iff, iff_true]
        split <;> omega

theorem AtDropdown.rangeLaw_iff (h : AtDropdown P text d type lo hi true w)
    (hdraw : (drawMenu P w).isSome) (hv : InRange lo hi (dropValue type d w.drops)) (a : Arrow) :
    RangeLaw P fuel type d lo hi w a ↔ RangeOk type d lo w a := by
  obtain ⟨w', hstep, -⟩ := h.arrow_returns hdraw fuel a
  have hvalue := (h.arrow_step hstep).2
  rw [RangeOk, ← arrow_inRange_iff hv a, ← hvalue]
  constructor
  · exact fun hlaw => hlaw w' [] hstep
  · intro hin w'' offers hstep'
    cases hstep.symm.trans hstep'
    exact hin

/-- A dropdown that `KEY_RIGHT` opens and arrows change: all its values are in the range if and only
    if, for an enumeration, the index was not below the minimum before, and no index at a minimum
    other than 0 is decremented. So a number always is, and an enumeration that starts at 0. -/
theorem dropdown_range (hat : AtDropdown P text d type lo hi false w)
    (hopen : keyHandler P fuel w keyRight = some (w', offers)) (arrows : List Arrow) :
    (InRange lo hi (dropValue type d w'.drops) ∧
        Guarded (arrowStep P fuel) (RangeLaw P fuel type d lo hi) w' arrows ↔
      (type = typeDropEnum → lo ≤ dropValue type d w.drops) ∧
        Guarded (arrowStep P fuel) (RangeOk type d lo) w' arrows) ∧
    (type = typeDropNum ∨ lo = 0 →
      InRange lo hi (dropValue type d w'.drops) ∧
        Guarded (arrowStep P fuel) (RangeLaw P fuel type d lo hi) w' arrows) := by
  obtain ⟨hat', hvalue, hdraw⟩ := hat.keyRight_step hopen
  have hfirst := openValue_inRange_iff type (dropValue type d w.drops)
    hat.declared.le
  rw [← hvalue] at hfirst
  -- between the arrows the dropdown is open, drawn, and its value in the range
  let inv : World σ → Prop := fun w => AtDropdown P text d type lo hi true w ∧
    (drawMenu P w).isSome ∧ InRange lo hi (dropValue type d w.drops)
  have hlaw : ∀ w a, inv w → (RangeLaw P fuel type d lo hi w a ↔ RangeOk type d lo w a) :=
    fun w a h => h.1.rangeLaw_iff h.2.1 h.2.2 a
  have hkeeps : ∀ w a w₁ o, inv w → RangeOk type d lo w a →
      arrowStep P fuel w a = some (w₁, o) → inv w₁ := by
    rintro w a w₁ o hinv hok hstep
    obtain ⟨w₂, hstep₂, hdraw₂⟩ := hinv.1.arrow_returns hinv.2.1 fuel a
    have hin := (hlaw w a hinv).mpr hok w₁ o hstep
    obtain rfl : w₂ = w₁ := congrArg Prod.fst (Option.some.inj (hstep₂.symm.trans hstep))
    exact ⟨(hinv.1.arrow_step hstep).1, hdraw₂, hin⟩
  have hrun : InRange lo hi (dropValue type d w'.drops) →
      (Guarded (arrowStep P fuel) (RangeLaw P fuel type d lo hi) w' arrows ↔
        Guarded (arrowStep P fuel) (RangeOk type d lo) w' arrows) :=
    fun hin => guarded_iff hlaw hkeeps ⟨hat', hdraw, hin⟩
  have hiff : InRange lo hi (dropValue type d w'.drops) ∧
        Guarded (arrowStep P fuel) (RangeLaw P fuel type d lo hi) w' arrows ↔
      (type = typeDropEnum → lo ≤ dropValue type d w.drops) ∧
        Guarded (arrowStep P fuel) (RangeOk type d lo) w' arrows := by
    rw [← hfirst]
    exact and_congr_right hrun
  refine ⟨hiff, fun hsafe => hiff.mpr ⟨fun htype => ?_, ?_⟩⟩
  · obtain hnum | rfl := hsafe
    · exact absurd (hnum.symm.trans htype) typeDropNum_ne
    · exact Nat.zero_le _
  · have hok : ∀ (w : World σ) a, True → True → RangeOk type d lo w a := by
      intro w a _ _ htype _ _
      obtain hnum | hzero := hsafe
      · exact absurd (hnum.symm.trans htype) typeDropNum_ne
      · exact hzero
    exact Guarded.imp hok (fun _ _ _ _ _ _ _ => trivial) trivial (guarded_true w' arrows)

/-! ### Stepping -/

/-- A step up from `v` can be taken back. -/
def StepsBack (type : DropType) (hi v : Nat) : Prop := type = typeDropEnum ∨ v + 1 < hi

theorem downValue_succ_iff {v : Nat} (hlo : lo ≤ v) :
    downValue type lo hi (v + 1) = v ↔ StepsBack type hi v := by
  simp only [downValue, StepsBack]
  by_cases htype : type = typeDropEnum
  · simp [htype]
  · simp only [htype, if_false, false_or]
    split <;> omega

theorem upValue_iterate {v n : Nat} (h : v + n ≤ hi) : (upValue hi)^[n] v = v + n := by
  induction n with
  | zero => rfl
  | succ n ih => rw [Function.iterate_succ_apply', ih (by omega), upValue, if_pos (by omega)]; rfl

theorem downValue_iterate {v n : Nat} (hfree : type = typeDropEnum ∨ v < hi) (h : lo + n ≤ v) :
    (downValue type lo hi)^[n] v = v - n := by
  induction n with
  | zero => rfl
  | succ n ih =>
      rw [Function.iterate_succ_apply', ih (by omega), downValue]
      split
      · omega
      · rename_i htype
        have hlt := hfree.resolve_left htype
        rw [if_neg (by omega)]
        omega

/-- A number of presses of one arrow. -/
theorem AtDropdown.arrows (h : AtDropdown P text d type lo hi true w)
    (hdraw : (drawMenu P w).isSome) (fuel : Nat) (a : Arrow) (n : Nat) :
    ∃ w', Reaches (arrowStep P fuel) w w' ∧ AtDropdown P text d type lo hi true w' ∧
      (drawMenu P w').isSome ∧
      dropValue type d w'.drops = (a.value type lo hi)^[n] (dropValue type d w.drops) := by
  induction n with
  | zero => exact ⟨w, .refl w, h, hdraw, rfl⟩
  | succ n ih =>
      obtain ⟨w₁, hreach, h₁, hdraw₁, hvalue⟩ := ih
      obtain ⟨w₂, hstep, hdraw₂⟩ := h₁.arrow_returns hdraw₁ fuel a
      obtain ⟨h₂, hvalue₂⟩ := h₁.arrow_step hstep
      refine ⟨w₂, hreach.trans (.head a (by rw [hstep]; rfl) (.refl w₂)), h₂, hdraw₂, ?_⟩
      rw [hvalue₂, hvalue, Function.iterate_succ_apply']

/-- A number at its maximum stays there. -/
theorem AtDropdown.stuck (h : AtDropdown P text d type lo hi true w) (htype : type ≠ typeDropEnum)
    (hv : dropValue type d w.drops = hi) (hreach : Reaches (arrowStep P fuel) w w') :
    dropValue type d w'.drops = hi := by
  obtain ⟨arrows, o, hrun⟩ := hreach
  let inv : World σ → List Offer → Prop := fun w _ =>
    AtDropdown P text d type lo hi true w ∧ dropValue type d w.drops = hi
  have hstep : ∀ w o a w₁ o₁, inv w o → arrowStep P fuel w a = some (w₁, o₁) →
      inv w₁ (o ++ o₁) := by
    rintro w - a w₁ o₁ ⟨hat, hval⟩ hstep
    obtain ⟨hat₁, hval₁⟩ := hat.arrow_step hstep
    refine ⟨hat₁, ?_⟩
    rw [hval₁, hval]
    cases a with
    | up => rw [Arrow.value, upValue, if_neg (Nat.lt_irrefl hi)]
    | down => rw [Arrow.value, downValue, if_neg htype, if_pos (.inr (Nat.le_refl hi))]
  have hinv : inv w' o := run_induction hstep ⟨h, hv⟩ hrun
  exact hinv.2

/-- Stepping a dropdown that was drawn: a step up is taken back by a step down if and only if it is
    an enumeration or the step does not reach the maximum; and a value is reached from another by
    arrows if and only if it is an enumeration or the number does not start at its maximum, or is
    there already. -/
theorem stepping_iff {w₀ : World σ} (hat : AtDropdown P text d type lo hi true w)
    (hdrawn : drawMenu P w₀ = some w) (fuel : Nat) :
    (∀ m v, Declared type d lo hi m → lo ≤ v → v < hi →
      (dropValue type d m = v →
        (dropValue type d ((MenuEntry.dropdown text d type).decrement
          ((MenuEntry.dropdown text d type).increment m)) = v ↔ StepsBack type hi v)) ∧
      (dropValue type d m = v + 1 →
        (dropValue type d ((MenuEntry.dropdown text d type).decrement m) = v ↔
          StepsBack type hi v))) ∧
    (InRange lo hi (dropValue type d w.drops) → ∀ t, InRange lo hi t →
      ((∃ w', Reaches (arrowStep P fuel) w w' ∧ dropValue type d w'.drops = t) ↔
        type = typeDropEnum ∨ dropValue type d w.drops ≠ hi ∨ t = hi)) := by
  refine ⟨fun m v hdecl hlo hhi => ⟨fun hv => ?_, fun hv => ?_⟩, ?_⟩
  · obtain ⟨hdecl', hup⟩ := hdecl.increment text
    rw [(hdecl'.decrement text).2, hup, hv, upValue, if_pos hhi]
    exact downValue_succ_iff hlo
  · rw [(hdecl.decrement text).2, hv]
    exact downValue_succ_iff hlo
  · rintro ⟨hvlo, hvhi⟩ t ⟨htlo, hthi⟩
    constructor
    · rintro ⟨w', hreach, rfl⟩
      by_contra hno
      rw [not_or, not_or, not_not] at hno
      exact hno.2.2 (hat.stuck hno.1 hno.2.1 hreach)
    · intro hfree
      by_cases hle : dropValue type d w.drops ≤ t
      · obtain ⟨w', hreach, -, -, hvalue⟩ :=
          hat.arrows (drawMenu_again hdrawn) fuel .up (t - dropValue type d w.drops)
        refine ⟨w', hreach, ?_⟩
        show _ = t
        rw [hvalue]
        show (upValue hi)^[_] _ = t
        rw [upValue_iterate (by omega)]
        omega
      · obtain ⟨w', hreach, -, -, hvalue⟩ :=
          hat.arrows (drawMenu_again hdrawn) fuel .down (dropValue type d w.drops - t)
        refine ⟨w', hreach, ?_⟩
        rw [hvalue]
        show (downValue type lo hi)^[_] _ = t
        rw [downValue_iterate (hfree.imp_right fun h => by omega) (by omega)]
        omega

end Keys

/-! ### A dropdown with the range from 1 to 2 -/

/-- A menu of one dropdown. -/
def dropMenu (type : DropType) : Program Unit :=
  { nestedApps with
    menus := fun _ i => if i = 0 then .dropdown (some letterA) 0 type else .dummy none }

/-- Its flag is `isOpen`, and index and number are `v`. -/
def dropWorld (isOpen : Bool) (v : UInt8) : World Unit :=
  { nestedAppsWorld with
    opened := fun _ _ => isOpen
    drops := ⟨fun _ => ⟨0, 1, 2, v⟩, fun _ => v.toUInt16⟩ }

theorem dropWorld_at {type : DropType} (htype : type = typeDropEnum ∨ type = typeDropNum)
    (isOpen : Bool) (v : UInt8) :
    AtDropdown (dropMenu type) (some letterA) 0 type 1 2 isOpen (dropWorld isOpen v) :=
  ⟨rfl, rfl, htype, rfl, rfl, by decide, fun _ => by decide⟩

/-- The number 0 is set to 1 when the dropdown is opened, and stays in the range. -/
theorem dropNum_range :
    ∃ w' offers, keyHandler (dropMenu typeDropNum) 3 (dropWorld false 0) keyRight =
        some (w', offers) ∧
      InRange 1 2 (dropValue typeDropNum 0 w'.drops) ∧
      Guarded (arrowStep (dropMenu typeDropNum) 3)
        (RangeLaw (dropMenu typeDropNum) 3 typeDropNum 0 1 2) w' [.up, .down] := by
  have hreturns : (keyHandler (dropMenu typeDropNum) 3 (dropWorld false 0) keyRight).isSome := by
    decide +kernel
  obtain ⟨⟨w', offers⟩, hkey⟩ := Option.isSome_iff_exists.mp hreturns
  exact ⟨w', offers, hkey,
    (dropdown_range (dropWorld_at (.inr rfl) false 0) hkey [.up, .down]).2 (.inl rfl)⟩

/-- The index 1 of the enumeration is decremented to 0, below its minimum. -/
theorem dropEnum_fails :
    ∃ w' offers, keyHandler (dropMenu typeDropEnum) 3 (dropWorld false 1) keyRight =
        some (w', offers) ∧
      ¬ Guarded (arrowStep (dropMenu typeDropEnum) 3)
        (RangeLaw (dropMenu typeDropEnum) 3 typeDropEnum 0 1 2) w' [.down] := by
  have hreturns : (keyHandler (dropMenu typeDropEnum) 3 (dropWorld false 1) keyRight).isSome := by
    decide +kernel
  obtain ⟨⟨w', offers⟩, hkey⟩ := Option.isSome_iff_exists.mp hreturns
  obtain ⟨hat, hvalue, hdraw⟩ := (dropWorld_at (.inl rfl) false 1).keyRight_step hkey
  have hone : dropValue typeDropEnum 0 w'.drops = 1 := hvalue
  refine ⟨w', offers, hkey, fun hlaw => ?_⟩
  have hin : InRange 1 2 (dropValue typeDropEnum 0 w'.drops) := by
    rw [hone]
    exact ⟨by decide, by decide⟩
  exact absurd ((hat.rangeLaw_iff hdraw hin .down).mp hlaw.1 rfl rfl hone) (by decide)

/-- From the index 2 of the open enumeration, 1 is reached. -/
theorem dropEnum_reaches :
    ∃ w w', drawMenu (dropMenu typeDropEnum) (dropWorld true 2) = some w ∧
      Reaches (arrowStep (dropMenu typeDropEnum) 3) w w' ∧
      dropValue typeDropEnum 0 w'.drops = 1 := by
  have hreturns : (drawMenu (dropMenu typeDropEnum) (dropWorld true 2)).isSome := by
    decide +kernel
  obtain ⟨w, hdraw⟩ := Option.isSome_iff_exists.mp hreturns
  obtain ⟨hat, hdrops⟩ := (dropWorld_at (.inl rfl) true 2).draw hdraw
  have hin : InRange 1 2 (dropValue typeDropEnum 0 w.drops) := by
    rw [hdrops]
    exact ⟨by decide, by decide⟩
  obtain ⟨w', hreach, hvalue⟩ :=
    ((stepping_iff hat hdraw 3).2 hin 1 ⟨by decide, by decide⟩).mpr (.inl rfl)
  exact ⟨w, w', hdraw, hreach, hvalue⟩

/-- From the number 2 of the open dropdown, 1 is not reached; and 1 incremented and decremented
    is 2. -/
theorem dropNum_stuck :
    ∃ w, drawMenu (dropMenu typeDropNum) (dropWorld true 2) = some w ∧
      (¬ ∃ w', Reaches (arrowStep (dropMenu typeDropNum) 3) w w' ∧
        dropValue typeDropNum 0 w'.drops = 1) ∧
      dropValue typeDropNum 0 (dropWorld true 1).drops = 1 ∧
      dropValue typeDropNum 0 ((MenuEntry.dropdown (some letterA) 0 typeDropNum).decrement
        ((MenuEntry.dropdown (some letterA) 0 typeDropNum).increment
          (dropWorld true 1).drops)) = 2 := by
  have hreturns : (drawMenu (dropMenu typeDropNum) (dropWorld true 2)).isSome := by
    decide +kernel
  obtain ⟨w, hdraw⟩ := Option.isSome_iff_exists.mp hreturns
  obtain ⟨hat, hdrops⟩ := (dropWorld_at (.inr rfl) true 2).draw hdraw
  have htwo : dropValue typeDropNum 0 w.drops = 2 := by
    rw [hdrops]
    decide
  refine ⟨w, hdraw, ?_, by decide, by decide⟩
  rintro ⟨w', hreach, hvalue⟩
  have hstays := hat.stuck typeDropNum_ne htwo hreach
  omega

end RfPirate
