/-
Module: RfPirate.Lib.PagedFlash
Layer: Lib
Purpose: Flash memory that is erased and written by the page. Data is loaded into a page buffer word
  by word, each word once, and a page write programs a page with the buffer and empties it. A page
  that is erased, loaded and written holds what was loaded and is blank elsewhere. A walk over the
  memory whose stride is one more than the page size misses every page that ends such a row.
Main exports: CellKind, FlashMem, erasePage, writePage, load, load_buffer, rewrite_cells,
  program_cells, eraseWalk, Meets, eraseWalk_cells, walk_meets_iff
-/
import Mathlib.Logic.Function.Basic
import Mathlib.Data.List.Basic

namespace Lib.PagedFlash

universe u

variable {α : Type u}

/-- What cells hold after an erase, and what programming does to a cell: it takes any value when it
    is blank, and programming the blank value leaves it alone. -/
structure CellKind (α : Type u) where
  blank : α
  program : α → α → α
  program_blank : ∀ x, program blank x = x
  program_by_blank : ∀ x, program x blank = x

/-- The cells by address, and the page buffer by offset in the page. -/
structure FlashMem (α : Type u) where
  cells : Nat → α
  buffer : Nat → Option α

section Operations

variable (K : CellKind α) (pageSize : Nat)

/-- Erases the page of an address. -/
def erasePage (a : Nat) (m : FlashMem α) : FlashMem α :=
  { m with cells := fun i => if i / pageSize = a / pageSize then K.blank else m.cells i }

/-- Programs the page of an address with the buffer, which is empty afterwards. -/
def writePage (a : Nat) (m : FlashMem α) : FlashMem α :=
  { cells := fun i =>
      if i / pageSize = a / pageSize then
        K.program (m.cells i) ((m.buffer (i % pageSize)).getD K.blank)
      else m.cells i
    buffer := fun _ => none }

/-- Empties the page buffer. -/
def FlashMem.dropBuffer (m : FlashMem α) : FlashMem α := { m with buffer := fun _ => none }

/-- A word for the buffer. One that is there already is not replaced. -/
def fillWord (o : Nat) (low high : α) (m : FlashMem α) : FlashMem α :=
  if m.buffer o = none then
    { m with buffer := Function.update (Function.update m.buffer o low) (o + 1) high }
  else m

/-- Words for the buffer, from an offset on. Half a word at the end is not loaded. -/
def load : Nat → List α → FlashMem α → FlashMem α
  | o, low :: high :: xs, m => load (o + 2) xs (fillWord o low high m)
  | _, _, m => m

end Operations

section Pages

variable {K : CellKind α} {pageSize : Nat} {m : FlashMem α} {a i o j : Nat} {xs : List α}

@[simp] theorem fillWord_cells (low high : α) : (fillWord o low high m).cells = m.cells := by
  unfold fillWord
  split <;> rfl

@[simp] theorem load_cells : (load o xs m).cells = m.cells := by
  induction o, xs, m using load.induct with
  | case1 o low high xs m ih => rw [load, ih, fillWord_cells]
  | case2 xs o m hxs => rw [load.eq_2 _ _ _ hxs]

/-- Words for the blank part of a buffer are all loaded. -/
theorem load_buffer (hblank : ∀ j, o ≤ j → j < o + xs.length → m.buffer j = none) :
    (load o xs m).buffer j =
      if o ≤ j ∧ j < o + 2 * (xs.length / 2) then xs[j - o]? else m.buffer j := by
  induction o, xs, m using load.induct with
  | case1 o low high xs m ih =>
      have hfill : fillWord o low high m =
          { m with buffer := Function.update (Function.update m.buffer o low) (o + 1) high } :=
        if_pos (hblank o (Nat.le_refl o) (by simp))
      have hrest : ∀ j, o + 2 ≤ j → j < o + 2 + xs.length →
          (fillWord o low high m).buffer j = none := by
        intro j hfrom hto
        rw [hfill]
        show Function.update (Function.update m.buffer o low) (o + 1) high j = none
        rw [Function.update_of_ne (by omega), Function.update_of_ne (by omega)]
        exact hblank j (by omega) (by simp only [List.length_cons]; omega)
      have hlen : (low :: high :: xs).length / 2 = xs.length / 2 + 1 := by
        simp only [List.length_cons]
        omega
      rw [load, ih hrest, hlen, hfill]
      by_cases hin : o + 2 ≤ j ∧ j < o + 2 + 2 * (xs.length / 2)
      · have hat : j - o = j - (o + 2) + 1 + 1 := by omega
        rw [if_pos hin, if_pos (by omega), hat, List.getElem?_cons_succ, List.getElem?_cons_succ]
      · rw [if_neg hin]
        show Function.update (Function.update m.buffer o low) (o + 1) high j = _
        by_cases hlow : j = o
        · subst hlow
          rw [Function.update_of_ne (by omega), Function.update_self, if_pos (by omega)]
          simp
        by_cases hhigh : j = o + 1
        · subst hhigh
          rw [Function.update_self, if_pos (by omega)]
          simp
        · rw [Function.update_of_ne hhigh, Function.update_of_ne hlow, if_neg (by omega)]
  | case2 xs o m hxs =>
      rw [load.eq_2 _ _ _ hxs]
      have hshort : xs.length / 2 = 0 := by
        match xs with
        | [] => simp
        | [_] => simp
        | low :: high :: xs => exact absurd rfl (hxs low high xs)
      rw [hshort, if_neg (by omega)]

/-- A page write to a blank page puts the buffer there. -/
theorem writePage_cells (hblank : ∀ i, i / pageSize = a / pageSize → m.cells i = K.blank)
    (i : Nat) :
    (writePage K pageSize a m).cells i =
      if i / pageSize = a / pageSize then (m.buffer (i % pageSize)).getD K.blank
      else m.cells i := by
  show (if i / pageSize = a / pageSize then
    K.program (m.cells i) ((m.buffer (i % pageSize)).getD K.blank) else m.cells i) = _
  by_cases hpage : i / pageSize = a / pageSize
  · rw [if_pos hpage, if_pos hpage, hblank i hpage, K.program_blank]
  · rw [if_neg hpage, if_neg hpage]

theorem erasePage_blank (hpage : i / pageSize = a / pageSize) :
    (erasePage K pageSize a m).cells i = K.blank := if_pos hpage

theorem erasePage_other (hpage : i / pageSize ≠ a / pageSize) :
    (erasePage K pageSize a m).cells i = m.cells i := if_neg hpage

/-- A page that is erased and written holds the buffer. -/
theorem rewrite_cells (K : CellKind α) (pageSize a : Nat) (m : FlashMem α) (i : Nat) :
    (writePage K pageSize a (erasePage K pageSize a m)).cells i =
      if i / pageSize = a / pageSize then (m.buffer (i % pageSize)).getD K.blank
      else m.cells i := by
  rw [writePage_cells fun i hpage => erasePage_blank hpage]
  by_cases hpage : i / pageSize = a / pageSize
  · rw [if_pos hpage, if_pos hpage]
    rfl
  · rw [if_neg hpage, if_neg hpage, erasePage_other hpage]

/-- A page that is erased, loaded and written holds the data where it was loaded and is blank
    elsewhere; the other pages are left alone. -/
theorem program_cells (hbuffer : ∀ j, m.buffer j = none) (i : Nat) :
    (writePage K pageSize a (load (a % pageSize) xs (erasePage K pageSize a m))).cells i =
      if i / pageSize = a / pageSize then
        if a ≤ i ∧ i < a + 2 * (xs.length / 2) then xs.getD (i - a) K.blank else K.blank
      else m.cells i := by
  rw [writePage_cells fun i hpage => by rw [load_cells, erasePage_blank hpage], load_cells]
  by_cases hpage : i / pageSize = a / pageSize
  · have hi := Nat.div_add_mod i pageSize
    have ha := Nat.div_add_mod a pageSize
    rw [hpage] at hi
    have hat : i % pageSize - a % pageSize = i - a := by omega
    have hin : (a % pageSize ≤ i % pageSize ∧
        i % pageSize < a % pageSize + 2 * (xs.length / 2)) ↔
          a ≤ i ∧ i < a + 2 * (xs.length / 2) := by omega
    have hbuffer' : ∀ j, (erasePage K pageSize a m).buffer j = none := hbuffer
    rw [if_pos hpage, if_pos hpage, load_buffer fun j _ _ => hbuffer' j, hat]
    by_cases hloaded : a ≤ i ∧ i < a + 2 * (xs.length / 2)
    · rw [if_pos (hin.mpr hloaded), if_pos hloaded, List.getD_eq_getElem?_getD]
    · rw [if_neg (mt hin.mp hloaded), if_neg hloaded]
      rw [hbuffer', Option.getD_none]
  · rw [if_neg hpage, if_neg hpage, erasePage_other hpage]

end Pages

/-! ### A walk that erases -/

section Walk

variable (K : CellKind α) (pageSize limit : Nat)

/-- Erases and writes the pages of the addresses from `a` on, in steps of one more than a page. -/
def eraseWalk (a : Nat) (m : FlashMem α) : FlashMem α :=
  if a < limit then
    eraseWalk (a + pageSize + 1) (writePage K pageSize a (erasePage K pageSize a m))
  else m
termination_by limit - a

variable {K : CellKind α} {pageSize limit : Nat} {m : FlashMem α} {a : Nat}

/-- The walk from `a` meets a page. -/
def Meets (pageSize limit a p : Nat) : Prop :=
  ∃ k, a + (pageSize + 1) * k < limit ∧ p = (a + (pageSize + 1) * k) / pageSize

theorem meets_iff_of_lt (hlt : a < limit) (p : Nat) :
    Meets pageSize limit a p ↔ p = a / pageSize ∨ Meets pageSize limit (a + pageSize + 1) p := by
  have hshift : ∀ k, a + (pageSize + 1) * (k + 1) = a + pageSize + 1 + (pageSize + 1) * k := by
    intro k
    rw [Nat.mul_succ]
    omega
  constructor
  · rintro ⟨k, hk, hp⟩
    cases k with
    | zero => exact .inl hp
    | succ k =>
        rw [hshift] at hk hp
        exact .inr ⟨k, hk, hp⟩
  · rintro (hp | ⟨k, hk, hp⟩)
    · exact ⟨0, hlt, hp⟩
    · refine ⟨k + 1, ?_, ?_⟩
      · rwa [hshift]
      · rwa [hshift]

theorem not_meets_of_ge (hge : ¬ a < limit) (p : Nat) : ¬ Meets pageSize limit a p := by
  rintro ⟨k, hk, -⟩
  exact hge (Nat.lt_of_le_of_lt (Nat.le_add_right a _) hk)

/-- With an empty buffer the pages that the walk meets are blank afterwards, and no other
    changes. -/
theorem eraseWalk_cells (K : CellKind α) (pageSize limit a : Nat)
    (hbuffer : ∀ j, m.buffer j = none) (i : Nat) :
    (Meets pageSize limit a (i / pageSize) →
      (eraseWalk K pageSize limit a m).cells i = K.blank) ∧
    (¬ Meets pageSize limit a (i / pageSize) →
      (eraseWalk K pageSize limit a m).cells i = m.cells i) := by
  induction a, m using eraseWalk.induct K pageSize limit with
  | case1 a m hlt ih =>
      obtain ⟨hmeets, hmisses⟩ := ih fun _ => rfl
      rw [eraseWalk, if_pos hlt, meets_iff_of_lt hlt]
      by_cases hlater : Meets pageSize limit (a + pageSize + 1) (i / pageSize)
      · exact ⟨fun _ => hmeets hlater, fun hnot => absurd (.inr hlater) hnot⟩
      rw [hmisses hlater, rewrite_cells]
      constructor
      · rintro (hfirst | hmet)
        · rw [if_pos hfirst, hbuffer, Option.getD_none]
        · exact absurd hmet hlater
      · intro hnot
        exact if_neg fun hfirst => hnot (.inl hfirst)
  | case2 a m hge =>
      rw [eraseWalk, if_neg hge]
      exact ⟨fun hmet => absurd hmet (not_meets_of_ge hge _), fun _ => rfl⟩

/-- From the start of the memory, the walk meets the pages below the limit but for the last one of
    each row of `pageSize + 1`. -/
theorem walk_meets_iff (hsize : 0 < pageSize) (p n : Nat) :
    Meets pageSize (pageSize * n) 0 p ↔ p < n ∧ p % (pageSize + 1) ≠ pageSize := by
  simp only [Meets, Nat.zero_add]
  have hpage : ∀ k, (pageSize + 1) * k / pageSize = k + k / pageSize := by
    intro k
    rw [Nat.succ_mul, Nat.mul_add_div hsize]
  have hlimit : ∀ k, (pageSize + 1) * k < pageSize * n ↔ k + k / pageSize < n := by
    intro k
    rw [← hpage, Nat.div_lt_iff_lt_mul hsize, Nat.mul_comm n]
  constructor
  · rintro ⟨k, hk, rfl⟩
    rw [hpage]
    refine ⟨(hlimit k).mp hk, ?_⟩
    have hrow : k + k / pageSize = k % pageSize + (pageSize + 1) * (k / pageSize) := by
      have hdiv := Nat.div_add_mod k pageSize
      rw [Nat.succ_mul]
      omega
    have hlt := Nat.mod_lt k hsize
    rw [hrow, Nat.add_mul_mod_self_left, Nat.mod_eq_of_lt (by omega)]
    omega
  · rintro ⟨hlt, hmod⟩
    have hdiv := Nat.div_add_mod p (pageSize + 1)
    have hmodlt := Nat.mod_lt p (Nat.succ_pos pageSize)
    generalize hq : p / (pageSize + 1) = q at hdiv
    generalize hr : p % (pageSize + 1) = r at hdiv hmod hmodlt
    have hr' : r < pageSize := by omega
    -- the step whose remainder and row are those of the page
    have hk : (pageSize * q + r) + (pageSize * q + r) / pageSize = p := by
      rw [Nat.mul_add_div hsize, Nat.div_eq_of_lt hr', ← hdiv, Nat.succ_mul]
      omega
    exact ⟨pageSize * q + r, (hlimit _).mpr (by rwa [hk]), by rw [hpage, hk]⟩

end Walk

end Lib.PagedFlash
