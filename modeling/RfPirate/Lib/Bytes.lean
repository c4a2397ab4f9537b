/-
Module: RfPirate.Lib.Bytes
Layer: Lib
Purpose: A 16-bit word seen through a byte pointer, low byte first, with its bits; and the two ways
  to choose entries of a table by a row of bits: the entries up to the first clear bit, and the
  entries at the set bits.
Main exports: lowByte, highByte, ofBytes, getLsbD_ofBytes, or_eq_or_iff, and_not_eq_iff,
  getMsbD_ofBytes_high, getMsbD_ofBytes_low, and_twoPow_ne_zero_iff, chooseWhile, choose,
  chooseWhile_eq_choose_iff
-/
import Mathlib.Data.List.Nodup

namespace Lib.Bytes

universe u

/-! ### Words and their bytes -/

/-- The first byte of a word in memory. -/
def lowByte (w : UInt16) : UInt8 := w.toUInt8

/-- The second byte of a word in memory. -/
def highByte (w : UInt16) : UInt8 := (w >>> 8).toUInt8

/-- The word with these two bytes in memory. -/
def ofBytes (low high : UInt8) : UInt16 := low.toUInt16 ||| (high.toUInt16 <<< 8)

theorem uint8_eq_iff_getLsbD {a b : UInt8} :
    a = b ↔ ∀ i < 8, a.toBitVec.getLsbD i = b.toBitVec.getLsbD i := by
  rw [← UInt8.toBitVec_inj, BitVec.eq_of_getLsbD_eq_iff]

theorem getLsbD_ofBytes (low high : UInt8) (i : Nat) :
    (ofBytes low high).toBitVec.getLsbD i =
      if i < 8 then low.toBitVec.getLsbD i else high.toBitVec.getLsbD (i - 8) := by
  by_cases hi : i < 8
  · have hi' : i < 16 := by omega
    simp [ofBytes, hi, hi']
  · have hlow : low.toBitVec.getLsbD i = false := BitVec.getLsbD_of_ge _ _ (by omega)
    by_cases hi' : i < 16
    · simp [ofBytes, hi, hi', hlow]
    · have hhigh : high.toBitVec.getLsbD (i - 8) = false := BitVec.getLsbD_of_ge _ _ (by omega)
      simp [ofBytes, hi, hlow, hhigh]

theorem uint8_eq_iff_getMsbD {a b : UInt8} :
    a = b ↔ ∀ i < 8, a.toBitVec.getMsbD i = b.toBitVec.getMsbD i := by
  constructor
  · rintro rfl i _
    rfl
  · intro h
    rw [uint8_eq_iff_getLsbD]
    intro i hi
    have hbit := h (7 - i) (by omega)
    have hi' : 8 - 1 - (7 - i) = i := by omega
    have hlt : 7 - i < 8 := by omega
    simpa only [BitVec.getMsbD_eq_getLsbD, hi', hlt, decide_true, Bool.true_and] using hbit

/-- The top half of a word is its second byte. -/
theorem getMsbD_ofBytes_high (low high : UInt8) {i : Nat} (hi : i < 8) :
    (ofBytes low high).toBitVec.getMsbD i = high.toBitVec.getMsbD i := by
  have hlt : i < 16 := by omega
  have hge : ¬ 16 - 1 - i < 8 := by omega
  have hbit : 16 - 1 - i - 8 = 8 - 1 - i := by omega
  rw [BitVec.getMsbD_eq_getLsbD, BitVec.getMsbD_eq_getLsbD, getLsbD_ofBytes, if_neg hge, hbit]
  simp [hlt, hi]

/-- The bottom half of a word is its first byte. -/
theorem getMsbD_ofBytes_low (low high : UInt8) {i : Nat} (hi : i < 8) :
    (ofBytes low high).toBitVec.getMsbD (8 + i) = low.toBitVec.getMsbD i := by
  have hlt : 8 + i < 16 := by omega
  have hge : 16 - 1 - (8 + i) < 8 := by omega
  have hbit : 16 - 1 - (8 + i) = 8 - 1 - i := by omega
  rw [BitVec.getMsbD_eq_getLsbD, BitVec.getMsbD_eq_getLsbD, getLsbD_ofBytes, if_pos hge, hbit]
  simp [hlt, hi]

theorem getLsbD_lowByte (w : UInt16) {i : Nat} (hi : i < 8) :
    (lowByte w).toBitVec.getLsbD i = w.toBitVec.getLsbD i := by
  simp [lowByte, hi]

theorem getLsbD_highByte (w : UInt16) {i : Nat} (hi : i < 8) :
    (highByte w).toBitVec.getLsbD i = w.toBitVec.getLsbD (8 + i) := by
  simp [highByte, hi]

@[simp] theorem lowByte_ofBytes (low high : UInt8) : lowByte (ofBytes low high) = low := by
  rw [uint8_eq_iff_getLsbD]
  intro i hi
  rw [getLsbD_lowByte _ hi, getLsbD_ofBytes, if_pos hi]

@[simp] theorem highByte_ofBytes (low high : UInt8) : highByte (ofBytes low high) = high := by
  rw [uint8_eq_iff_getLsbD]
  intro i hi
  rw [getLsbD_highByte _ hi, getLsbD_ofBytes, if_neg (by omega), Nat.add_sub_cancel_left]

@[simp] theorem lowByte_or (a b : UInt16) : lowByte (a ||| b) = lowByte a ||| lowByte b := by
  simp [lowByte]

@[simp] theorem lowByte_and (a b : UInt16) : lowByte (a &&& b) = lowByte a &&& lowByte b := by
  simp [lowByte]

@[simp] theorem lowByte_not (a : UInt16) : lowByte (~~~a) = ~~~lowByte a := by
  simp [lowByte]

@[simp] theorem highByte_or (a b : UInt16) : highByte (a ||| b) = highByte a ||| highByte b := by
  rw [uint8_eq_iff_getLsbD]
  intro i hi
  simp only [UInt8.toBitVec_or, BitVec.getLsbD_or, getLsbD_highByte _ hi, UInt16.toBitVec_or]

@[simp] theorem highByte_and (a b : UInt16) : highByte (a &&& b) = highByte a &&& highByte b := by
  rw [uint8_eq_iff_getLsbD]
  intro i hi
  simp only [UInt8.toBitVec_and, BitVec.getLsbD_and, getLsbD_highByte _ hi, UInt16.toBitVec_and]

@[simp] theorem highByte_not (a : UInt16) : highByte (~~~a) = ~~~highByte a := by
  rw [uint8_eq_iff_getLsbD]
  intro i hi
  have hi' : 8 + i < 16 := by omega
  simp only [UInt8.toBitVec_not, BitVec.getLsbD_not, getLsbD_highByte _ hi, UInt16.toBitVec_not,
    hi, hi']

/-- Setting the bits of `a` or those of `b` is the same where they differ only in set bits. -/
theorem or_eq_or_iff (r a b : UInt8) : r ||| a = r ||| b ↔ (a ^^^ b) &&& ~~~r = 0 := by
  rw [uint8_eq_iff_getLsbD, uint8_eq_iff_getLsbD]
  refine forall₂_congr fun i hi => ?_
  have hzero : (0 : UInt8).toBitVec.getLsbD i = false := by simp
  simp only [UInt8.toBitVec_or, UInt8.toBitVec_and, UInt8.toBitVec_xor, UInt8.toBitVec_not,
    BitVec.getLsbD_or, BitVec.getLsbD_and, BitVec.getLsbD_xor, BitVec.getLsbD_not, hzero, hi]
  cases r.toBitVec.getLsbD i <;> simp

/-- Clearing the bits of `a` or those of `b` is the same where they differ only in clear bits. -/
theorem and_not_eq_iff (r a b : UInt8) : r &&& ~~~a = r &&& ~~~b ↔ (a ^^^ b) &&& r = 0 := by
  rw [uint8_eq_iff_getLsbD, uint8_eq_iff_getLsbD]
  refine forall₂_congr fun i hi => ?_
  have hzero : (0 : UInt8).toBitVec.getLsbD i = false := by simp
  simp only [UInt8.toBitVec_and, UInt8.toBitVec_xor, UInt8.toBitVec_not,
    BitVec.getLsbD_and, BitVec.getLsbD_xor, BitVec.getLsbD_not, hzero, hi]
  cases r.toBitVec.getLsbD i <;> simp

theorem uint8_or_and_self (a mask : UInt8) : (a ||| mask) &&& mask = mask := by
  rw [uint8_eq_iff_getLsbD]
  intro i _
  simp only [UInt8.toBitVec_and, UInt8.toBitVec_or, BitVec.getLsbD_and, BitVec.getLsbD_or]
  cases mask.toBitVec.getLsbD i <;> simp

theorem uint8_or_and_right (a b c : UInt8) : (a ||| b) &&& c = a &&& c ||| b &&& c :=
  UInt8.toBitVec_inj.mp BitVec.and_or_distrib_right

/-- The test of a single bit. -/
theorem and_twoPow_ne_zero_iff (w : UInt16) {mask : UInt16} {k : Nat} (hk : k < 16)
    (hmask : mask.toBitVec = BitVec.twoPow 16 k) :
    w &&& mask ≠ 0 ↔ w.toBitVec.getLsbD k = true := by
  have hne : BitVec.twoPow 16 k ≠ 0#16 := by
    intro h
    have hbit := congrArg (·.getLsbD k) h
    simp [hk] at hbit
  rw [Ne, ← UInt16.toBitVec_inj, UInt16.toBitVec_and, hmask, BitVec.and_twoPow]
  by_cases hbit : w.toBitVec.getLsbD k = true
  · simp [hbit, hne]
  · simp [hbit]

/-! ### Entries of a table chosen by bits -/

section Choose

variable {α : Type u}

/-- The entries before the first clear bit. -/
def chooseWhile : List α → (Nat → Bool) → List α
  | [], _ => []
  | x :: xs, b => if b 0 then x :: chooseWhile xs (fun i => b (i + 1)) else []

theorem chooseWhile_eq_nil {xs : List α} {b : Nat → Bool} (h : b 0 = false) :
    chooseWhile xs b = [] := by
  cases xs with
  | nil => rfl
  | cons x xs => rw [chooseWhile, if_neg (by simp [h])]

/-- The entries at the set bits. -/
def choose : List α → (Nat → Bool) → List α
  | [], _ => []
  | x :: xs, b =>
      if b 0 then x :: choose xs (fun i => b (i + 1)) else choose xs fun i => b (i + 1)

theorem mem_of_mem_choose {x : α} {xs : List α} {b : Nat → Bool} (h : x ∈ choose xs b) :
    x ∈ xs := by
  induction xs generalizing b with
  | nil => cases h
  | cons y xs ih =>
      rw [choose] at h
      split at h
      · rcases List.mem_cons.mp h with rfl | h
        · exact List.mem_cons_self
        · exact List.mem_cons_of_mem y (ih h)
      · exact List.mem_cons_of_mem y (ih h)

theorem choose_eq_nil_iff {xs : List α} {b : Nat → Bool} :
    choose xs b = [] ↔ ∀ i < xs.length, b i = false := by
  induction xs generalizing b with
  | nil => simp [choose]
  | cons x xs ih =>
      rw [choose, List.length_cons]
      constructor
      · intro h i hi
        split at h
        · cases h
        · cases i with
          | zero => simpa using ‹¬b 0 = true›
          | succ i => exact ih.mp h i (by omega)
      · intro h
        rw [if_neg (by simp [h 0 (by omega)])]
        exact ih.mpr fun i hi => h (i + 1) (by omega)

/-- Both ways choose the same entries when the bits of the second are the all-ones prefixes of the
    bits of the first. -/
theorem chooseWhile_eq_choose_iff {xs : List α} (hxs : xs.Nodup) {b b' : Nat → Bool} :
    chooseWhile xs b = choose xs b' ↔
      ∀ i < xs.length, (b' i = true ↔ ∀ j ≤ i, b j = true) := by
  induction xs generalizing b b' with
  | nil => simp [chooseWhile, choose]
  | cons x xs ih =>
      obtain ⟨hx, hxs⟩ := List.nodup_cons.mp hxs
      rw [chooseWhile, choose, List.length_cons]
      by_cases hb : b 0 = true
      · -- the rest is compared after a common first entry
        have hshift : ∀ i, (∀ j ≤ i + 1, b j = true) ↔ ∀ j ≤ i, b (j + 1) = true := by
          intro i
          constructor
          · exact fun h j hj => h (j + 1) (by omega)
          · intro h j hj
            cases j with
            | zero => exact hb
            | succ j => exact h j (by omega)
        rw [if_pos hb]
        by_cases hb' : b' 0 = true
        · rw [if_pos hb', List.cons.injEq, and_iff_right rfl, ih hxs]
          constructor
          · intro h i hi
            cases i with
            | zero => simp [hb, hb']
            | succ i => rw [hshift, h i (by omega)]
          · intro h i hi
            rw [← hshift, h (i + 1) (by omega)]
        · rw [if_neg hb']
          constructor
          · intro h
            have hmem : x ∈ choose xs fun i => b' (i + 1) := h ▸ List.mem_cons_self
            exact absurd (mem_of_mem_choose hmem) hx
          · intro h
            have hzero := (h 0 (by omega)).mpr fun j hj => by
              rw [Nat.le_zero.mp hj]
              exact hb
            exact absurd hzero hb'
      · -- nothing is chosen by the first way
        have hnone : ∀ i, ¬ ∀ j ≤ i, b j = true := fun i h => hb (h 0 (Nat.zero_le i))
        rw [if_neg hb]
        have hcons : choose (x :: xs) b' = [] ↔ ∀ i < (x :: xs).length, b' i = false :=
          choose_eq_nil_iff
        rw [choose, List.length_cons] at hcons
        rw [eq_comm, hcons]
        refine forall₂_congr fun i _ => ?_
        simp [hnone i]

end Choose

end Lib.Bytes
