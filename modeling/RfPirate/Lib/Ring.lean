/-
Module: RfPirate.Lib.Ring
Layer: Lib
Purpose: A window of a ring of `N` slots. `window N f t n` lists the `n` slots that start at index
  `t` and wrap at `N`. The lemmas say what a write at the free end and a removal at the oldest end
  do to the window, and how the two cursors of a ring tell an empty window from a full one.
  `Occupancy` is the same for rings that have no count and mark free slots by their content.
Main exports: Ring.next, Ring.window, Ring.window_push, Ring.window_cons, Ring.slot_inj,
  Ring.Occupancy, Ring.Occupancy.push, Ring.Occupancy.pop
-/
import Mathlib.Data.List.Basic
import Mathlib.Logic.Function.Basic
import Mathlib.Order.Basic

namespace Lib.Ring

universe u

variable {α : Type u}

/-- The index after `i` in a ring of `N` slots, as ring code computes it. -/
def next (N i : Nat) : Nat := if i = N - 1 then 0 else i + 1

/-- The index `k` slots after `t`. -/
def slot (N t k : Nat) : Nat := (t + k) % N

/-- The `n` slots from index `t` on, oldest first. -/
def window (N : Nat) (f : Nat → α) (t : Nat) : Nat → List α
  | 0 => []
  | n + 1 => window N f t n ++ [f (slot N t n)]

theorem next_eq_mod {N i : Nat} (hi : i < N) : next N i = (i + 1) % N := by
  unfold next
  split
  · have : i + 1 = N := by omega
    simp [this]
  · rw [Nat.mod_eq_of_lt (by omega)]

theorem next_lt {N i : Nat} (hi : i < N) : next N i < N := by
  unfold next
  split <;> omega

theorem slot_lt {N : Nat} (t k : Nat) (hN : 0 < N) : slot N t k < N := Nat.mod_lt _ hN

@[simp] theorem slot_zero {N t : Nat} (ht : t < N) : slot N t 0 = t := Nat.mod_eq_of_lt ht

theorem next_slot {N : Nat} (t k : Nat) (hN : 0 < N) : next N (slot N t k) = slot N t (k + 1) := by
  rw [next_eq_mod (slot_lt t k hN)]
  simp [slot, Nat.add_assoc]

theorem slot_next {N t : Nat} (ht : t < N) (k : Nat) : slot N (next N t) k = slot N t (k + 1) := by
  rw [next_eq_mod ht]
  simp only [slot, Nat.mod_add_mod]
  congr 1
  omega

/-- Offsets below one revolution name distinct slots. -/
theorem slot_inj {N t j k : Nat} (ht : t < N) (hj : j < N) (hk : k < N)
    (h : slot N t j = slot N t k) : j = k := by
  unfold slot at h
  rcases Nat.lt_or_ge (t + j) N with hj' | hj' <;> rcases Nat.lt_or_ge (t + k) N with hk' | hk'
  · rw [Nat.mod_eq_of_lt hj', Nat.mod_eq_of_lt hk'] at h
    omega
  · rw [Nat.mod_eq_of_lt hj', Nat.mod_eq_sub_mod hk', Nat.mod_eq_of_lt (by omega)] at h
    omega
  · rw [Nat.mod_eq_sub_mod hj', Nat.mod_eq_of_lt (by omega), Nat.mod_eq_of_lt hk'] at h
    omega
  · rw [Nat.mod_eq_sub_mod hj', Nat.mod_eq_of_lt (by omega), Nat.mod_eq_sub_mod hk',
      Nat.mod_eq_of_lt (by omega)] at h
    omega

theorem mem_window {N : Nat} (f : Nat → α) (t : Nat) {j n : Nat} (hj : j < n) :
    f (slot N t j) ∈ window N f t n := by
  induction n with
  | zero => exact absurd hj (Nat.not_lt_zero j)
  | succ n ih =>
      rcases Nat.lt_or_eq_of_le (Nat.le_of_lt_succ hj) with hlt | heq
      · exact List.mem_append_left _ (ih hlt)
      · subst heq
        exact List.mem_append_right _ (List.mem_singleton.mpr rfl)

/-- Two slot functions that agree on the window's slots have the same window. -/
theorem window_congr {N t n : Nat} {f g : Nat → α}
    (h : ∀ k < n, f (slot N t k) = g (slot N t k)) : window N f t n = window N g t n := by
  induction n with
  | zero => rfl
  | succ n ih =>
      simp only [window]
      rw [ih (fun k hk => h k (by omega)), h n (by omega)]

/-- A write to the slot after the window does not disturb the window. -/
theorem window_update {N t n : Nat} (f : Nat → α) (x : α) (ht : t < N) (hn : n < N) :
    window N (Function.update f (slot N t n) x) t n = window N f t n := by
  apply window_congr
  intro k hk
  have hne : slot N t k ≠ slot N t n := by
    intro h
    have := slot_inj ht (by omega) hn h
    omega
  simp [Function.update_of_ne hne]

/-- Writing the slot after the window and advancing the head appends to the window. -/
theorem window_push {N t n : Nat} (f : Nat → α) (x : α) (ht : t < N) (hn : n < N) :
    window N (Function.update f (slot N t n) x) t (n + 1) = window N f t n ++ [x] := by
  simp [window, window_update f x ht hn]

/-- The oldest element of a nonempty window is at `t`; the rest is the window from the next slot. -/
theorem window_cons {N t : Nat} (f : Nat → α) (ht : t < N) (n : Nat) :
    window N f t (n + 1) = f t :: window N f (next N t) n := by
  induction n with
  | zero => simp [window, ht]
  | succ n ih =>
      rw [window, ih, window, slot_next ht]
      rfl

/-- The cursors meet exactly when the window is empty. -/
theorem slot_eq_self_iff {N t n : Nat} (ht : t < N) (hn : n < N) : slot N t n = t ↔ n = 0 := by
  constructor
  · intro h
    exact slot_inj ht hn (by omega) (h.trans (slot_zero ht).symm)
  · rintro rfl
    exact slot_zero ht

/-- The head's next index is the tail exactly when one slot is left unused. -/
theorem next_slot_eq_self_iff {N t n : Nat} (ht : t < N) (hn : n < N) :
    next N (slot N t n) = t ↔ n = N - 1 := by
  rw [next_slot t n (by omega)]
  constructor
  · intro h
    by_contra hne
    have hz : n + 1 = 0 := (slot_eq_self_iff ht (by omega)).mp h
    omega
  · rintro rfl
    have : t + (N - 1 + 1) = t + N := by omega
    simp [slot, this, Nat.mod_eq_of_lt ht]

/-- Every slot is some offset from `t`. -/
theorem exists_slot {N t i : Nat} (ht : t < N) (hi : i < N) : ∃ k < N, slot N t k = i := by
  rcases Nat.lt_or_ge i t with h | h
  · refine ⟨i + N - t, by omega, ?_⟩
    have hsum : t + (i + N - t) = i + N := by omega
    simp [slot, hsum, Nat.mod_eq_of_lt hi]
  · refine ⟨i - t, by omega, ?_⟩
    have hsum : t + (i - t) = i := by omega
    simp [slot, hsum, Nat.mod_eq_of_lt hi]

/-- A write to the slot just removed does not disturb the rest of the window. -/
theorem window_update_removed {N t n : Nat} (f : Nat → α) (x : α) (ht : t < N) (hn : n < N) :
    window N (Function.update f t x) (next N t) n = window N f (next N t) n := by
  apply window_congr
  intro k hk
  have hne : slot N (next N t) k ≠ t := by
    rw [slot_next ht]
    intro h
    have hzero := slot_inj ht (by omega) (by omega) (h.trans (slot_zero ht).symm)
    omega
  simp [Function.update_of_ne hne]

/-! ### Rings that mark free slots in the slots themselves -/

/-- The slots from `t` on hold `l`, oldest first, and none of them looks free; the remaining slots
    look free. Unlike a ring with two cursors only, all `N` slots can be in use. -/
structure Occupancy (N : Nat) (free : α → Prop) (f : Nat → α) (t : Nat) (l : List α) : Prop where
  lt : t < N
  le : l.length ≤ N
  contents : window N f t l.length = l
  used : ∀ x ∈ l, ¬ free x
  unused : ∀ j, l.length ≤ j → j < N → free (f (slot N t j))

namespace Occupancy

variable {N t : Nat} {free : α → Prop} {f : Nat → α} {l : List α}

theorem used_slot (h : Occupancy N free f t l) {j : Nat} (hj : j < l.length) :
    ¬ free (f (slot N t j)) := by
  apply h.used
  have hmem : f (slot N t j) ∈ window N f t l.length := mem_window f t hj
  rwa [h.contents] at hmem

/-- The slot after the window looks free unless the ring is full. -/
theorem free_head_iff (h : Occupancy N free f t l) :
    free (f (slot N t l.length)) ↔ l.length < N := by
  constructor
  · intro hfree
    by_contra hfull
    have hlen : l.length = N := Nat.le_antisymm h.le (by omega)
    have hpos : 0 < l.length := Nat.lt_of_le_of_lt (Nat.zero_le t) (hlen ▸ h.lt)
    have hwrap : slot N t l.length = slot N t 0 := by simp [slot, hlen]
    exact h.used_slot hpos (hwrap ▸ hfree)
  · exact h.unused l.length (Nat.le_refl _)

/-- The oldest slot looks free exactly when the ring is empty. -/
theorem free_tail_iff (h : Occupancy N free f t l) : free (f t) ↔ l = [] := by
  have htail : slot N t 0 = t := slot_zero h.lt
  constructor
  · intro hfree
    by_contra hne
    exact h.used_slot (List.length_pos_iff.mpr hne) (htail.symm ▸ hfree)
  · rintro rfl
    have hempty := h.unused 0 (Nat.le_refl _) (Nat.lt_of_le_of_lt (Nat.zero_le t) h.lt)
    rwa [htail] at hempty

/-- In a full ring no slot looks free. -/
theorem not_free_of_full (h : Occupancy N free f t l) (hfull : l.length = N) {i : Nat}
    (hi : i < N) : ¬ free (f i) := by
  obtain ⟨k, hk, rfl⟩ := exists_slot h.lt hi
  exact h.used_slot (hfull ▸ hk)

theorem push (h : Occupancy N free f t l) (hroom : l.length < N) {x : α} (hx : ¬ free x) :
    Occupancy N free (Function.update f (slot N t l.length) x) t (l ++ [x]) where
  lt := h.lt
  le := by
    rw [List.length_append, List.length_singleton]
    exact hroom
  contents := by
    simp only [List.length_append, List.length_singleton]
    rw [window_push f x h.lt hroom, h.contents]
  used := by
    intro y hy
    rcases List.mem_append.mp hy with hold | hnew
    · exact h.used y hold
    · rwa [List.mem_singleton.mp hnew]
  unused := by
    intro j hj hjN
    simp only [List.length_append, List.length_singleton] at hj
    have hne : slot N t j ≠ slot N t l.length := by
      intro heq
      have := slot_inj h.lt hjN hroom heq
      omega
    rw [Function.update_of_ne hne]
    exact h.unused j (by omega) hjN

theorem pop {x : α} (h : Occupancy N free f t (x :: l)) {y : α} (hy : free y) :
    Occupancy N free (Function.update f t y) (next N t) l where
  lt := next_lt h.lt
  le := Nat.le_of_succ_le h.le
  contents := by
    have hcons := h.contents
    rw [List.length_cons, window_cons f h.lt] at hcons
    rw [window_update_removed f y h.lt h.le]
    exact (List.cons.inj hcons).2
  used := fun z hz => h.used z (List.mem_cons_of_mem x hz)
  unused := by
    intro j hj hjN
    rw [slot_next h.lt]
    rcases Nat.lt_or_ge (j + 1) N with hlt | hge
    · have hne : slot N t (j + 1) ≠ t := by
        intro heq
        have := slot_inj h.lt hlt (by omega) (heq.trans (slot_zero h.lt).symm)
        omega
      rw [Function.update_of_ne hne]
      exact h.unused (j + 1) (by simpa using hj) hlt
    · -- one full revolution: this is the slot just freed
      have hself : slot N t (j + 1) = t := by
        have hN : j + 1 = N := by omega
        simp [slot, hN, Nat.mod_eq_of_lt h.lt]
      simpa [hself] using hy

theorem head_eq {x : α} (h : Occupancy N free f t (x :: l)) : f t = x := by
  have hcons := h.contents
  rw [List.length_cons, window_cons f h.lt] at hcons
  exact (List.cons.inj hcons).1

end Occupancy

end Lib.Ring
