/-
Module: RfPirate.Lib.Stream
Layer: Lib
Purpose: Byte streams of nested loops and the memory they are written to. `collect f n` is what a
  loop emits whose round `i` emits `f i`, and it stops where a round fails; when every round emits
  `m` items, item `k` of round `i` is item `m * i + k` of the stream. `writeAll` puts a stream into
  a memory through a pointer that wraps.
Main exports: collect, collect_spec, writeAll, writeAll_spec
-/
import Mathlib.Logic.Function.Basic
import Mathlib.Data.List.Basic

namespace Lib.Stream

universe u

variable {α : Type u}

/-! ### What a loop emits -/

/-- The items of the rounds `0` to `n - 1`, or `none` if one of them fails. -/
def collect (f : Nat → Option (List α)) : Nat → Option (List α)
  | 0 => some []
  | n + 1 =>
      match collect f n, f n with
      | some xs, some ys => some (xs ++ ys)
      | _, _ => none

/-- Rounds of `m` items. -/
theorem collect_spec {f : Nat → Option (List α)} {m n : Nat}
    (h : ∀ i < n, ∃ xs, f i = some xs ∧ xs.length = m) :
    ∃ out, collect f n = some out ∧ out.length = m * n ∧
      ∀ i < n, ∀ k < m, ∀ xs, f i = some xs → out[m * i + k]? = xs[k]? := by
  induction n with
  | zero => exact ⟨[], rfl, by simp, fun i hi => absurd hi (Nat.not_lt_zero i)⟩
  | succ n ih =>
      obtain ⟨out, hout, hlen, hitem⟩ := ih fun i hi => h i (Nat.lt_succ_of_lt hi)
      obtain ⟨last, hlast, hlastlen⟩ := h n (Nat.lt_succ_self n)
      refine ⟨out ++ last, by rw [collect, hout, hlast], ?_, ?_⟩
      · rw [List.length_append, hlen, hlastlen, Nat.mul_succ]
      · intro i hi k hk xs hxs
        by_cases hin : i = n
        · subst hin
          obtain rfl : last = xs := Option.some.inj (hlast.symm.trans hxs)
          rw [List.getElem?_append_right (by omega), hlen, Nat.add_sub_cancel_left]
        · have hlt : i < n := by omega
          have hround : m * (i + 1) ≤ m * n := Nat.mul_le_mul_left m hlt
          rw [Nat.mul_succ] at hround
          rw [List.getElem?_append_left (by omega)]
          exact hitem i hlt k hk xs hxs

/-! ### Writing through a wrapping pointer -/

/-- The memory and the pointer after the items were written. -/
def writeAll (size : Nat) : List α → (Nat → α) × Nat → (Nat → α) × Nat
  | [], s => s
  | x :: xs, s => writeAll size xs (Function.update s.1 s.2 x, (s.2 + 1) % size)

/-- A stream that does not pass the end of the memory: it leaves what is before the pointer, and its
    items follow from there. -/
theorem writeAll_spec {size : Nat} (xs : List α) {mem : Nat → α} {p : Nat} (hp : p < size)
    (hfit : p + xs.length ≤ size) :
    (writeAll size xs (mem, p)).2 = (p + xs.length) % size ∧
    (∀ a < p, (writeAll size xs (mem, p)).1 a = mem a) ∧
    ∀ i x, xs[i]? = some x → (writeAll size xs (mem, p)).1 (p + i) = x := by
  induction xs generalizing mem p with
  | nil => simp [writeAll, Nat.mod_eq_of_lt hp]
  | cons x xs ih =>
      rw [List.length_cons] at hfit
      rw [writeAll, List.length_cons]
      by_cases hend : p + 1 < size
      · obtain ⟨hptr, hbefore, hitems⟩ := @ih (Function.update mem p x) (p + 1) hend (by omega)
        simp only [Nat.mod_eq_of_lt hend]
        refine ⟨by rw [hptr]; congr 1; omega, fun a ha => ?_, fun i y hy => ?_⟩
        · rw [hbefore a (by omega), Function.update_of_ne (by omega)]
        · cases i with
          | zero =>
              rw [hbefore (p + 0) (by omega)]
              simpa using hy
          | succ i =>
              have hat : p + (i + 1) = p + 1 + i := by omega
              rw [hat]
              exact hitems i y (by simpa using hy)
      · -- the last cell of the memory
        have hxs : xs = [] := List.eq_nil_of_length_eq_zero (by omega)
        subst hxs
        simp only [writeAll]
        refine ⟨by simp, fun a ha => Function.update_of_ne (by omega) _ _, fun i y hy => ?_⟩
        cases i with
        | zero => simpa using hy
        | succ i => simp at hy

end Lib.Stream
