/-
Module: RfPirate.Lib.Periodic
Layer: Lib
Purpose: The times at which a wrapping counter shows a multiple of a period. A counter of modulus
  `M` that started at `c` shows `(c + t) % M` after `t` ticks, so the phase survives a wrap only
  when the period divides the modulus.
Main exports: dueTimes, dueTimes_succ, isChain_filter_range_iff, dueTimes_isChain_iff
-/
import Mathlib.Data.List.Chain
import Mathlib.Data.Nat.ModEq

namespace Lib.Periodic

/-! ### Consecutive times -/

/-- `a` and `b` satisfy `P` and no time between them does. -/
structure Consecutive (P : Nat → Prop) (a b : Nat) : Prop where
  lt : a < b
  left : P a
  right : P b
  between : ∀ x, a < x → x < b → ¬ P x

section Filter

variable {P : Nat → Prop} [DecidablePred P]

theorem filter_range_succ (n : Nat) :
    (List.range (n + 1)).filter (fun t => P t) =
      (List.range n).filter (fun t => P t) ++ if P n then [n] else [] := by
  rw [List.range_succ, List.filter_append]
  by_cases hn : P n <;> simp [hn]

theorem getLast?_filter_range (n a : Nat) :
    a ∈ ((List.range n).filter fun t => P t).getLast? ↔
      a < n ∧ P a ∧ ∀ x, a < x → x < n → ¬ P x := by
  induction n with
  | zero => simp
  | succ n ih =>
      rw [filter_range_succ]
      by_cases hn : P n
      · rw [if_pos hn, List.getLast?_append, List.getLast?_singleton, Option.some_or,
          Option.mem_some_iff]
        constructor
        · rintro rfl
          exact ⟨Nat.lt_succ_self _, hn, fun x hlt hx => absurd hlt (by omega)⟩
        · rintro ⟨hlt, -, hnone⟩
          by_contra hne
          exact hnone n (by omega) (Nat.lt_succ_self n) hn
      · rw [if_neg hn, List.append_nil, ih]
        constructor
        · rintro ⟨hlt, ha, hnone⟩
          refine ⟨by omega, ha, fun x hax hx hP => ?_⟩
          have hne : x ≠ n := fun heq => hn (heq ▸ hP)
          exact hnone x hax (by omega) hP
        · rintro ⟨hlt, ha, hnone⟩
          have hne : a ≠ n := fun heq => hn (heq ▸ ha)
          exact ⟨by omega, ha, fun x hax hx => hnone x hax (by omega)⟩

/-- The chosen times chain by `R` when `R` holds of every two consecutive ones. -/
theorem isChain_filter_range_iff {R : Nat → Nat → Prop} (n : Nat) :
    ((List.range n).filter fun t => P t).IsChain R ↔
      ∀ a b, b < n → Consecutive P a b → R a b := by
  induction n with
  | zero => simp
  | succ n ih =>
      rw [filter_range_succ, List.isChain_append, ih]
      by_cases hn : P n
      · rw [if_pos hn]
        simp only [getLast?_filter_range]
        constructor
        · rintro ⟨hbefore, -, hlast⟩ a b hb hab
          by_cases hbn : b = n
          · subst hbn
            exact hlast a ⟨hab.lt, hab.left, hab.between⟩ b rfl
          · exact hbefore a b (by omega) hab
        · intro h
          refine ⟨fun a b hb hab => h a b (by omega) hab, List.isChain_singleton n, ?_⟩
          rintro a ⟨hlt, ha, hnone⟩ b hb
          obtain rfl : n = b := by simpa using hb
          exact h a n (Nat.lt_succ_self n) ⟨hlt, ha, hn, hnone⟩
      · rw [if_neg hn]
        constructor
        · rintro ⟨h, -⟩ a b hb hab
          have hne : b ≠ n := fun heq => hn (heq ▸ hab.right)
          exact h a b (by omega) hab
        · intro h
          exact ⟨fun a b hb hab => h a b (by omega) hab, List.isChain_nil, by simp⟩

end Filter

/-- Where the chosen times are those a multiple of `p` after `a`, the next one is `a + p`. -/
theorem Consecutive.eq_add {P : Nat → Prop} {p a b : Nat} (h : Consecutive P a b) (hp : 0 < p)
    (hdvd : ∀ t, a ≤ t → t ≤ b → (P t ↔ p ∣ t - a)) : b = a + p := by
  have hlt := h.lt
  have hb : p ∣ b - a := (hdvd b (by omega) le_rfl).mp h.right
  have hle : p ≤ b - a := Nat.le_of_dvd (by omega) hb
  by_contra hne
  have hmid : P (a + p) := (hdvd (a + p) (by omega) (by omega)).mpr (by simp)
  exact h.between (a + p) (by omega) (by omega) hmid

/-! ### The multiples a wrapping counter shows -/

section Wrap

variable {M p c n : Nat}

/-- The first `n` times, among them the ones at which the counter shows a multiple of `p`. -/
def dueTimes (M p c n : Nat) : List Nat :=
  (List.range n).filter fun t => (c + t) % M % p = 0

theorem dueTimes_succ (M p c n : Nat) :
    dueTimes M p c (n + 1) =
      dueTimes M p c n ++ if (c + n) % M % p = 0 then [n] else [] :=
  filter_range_succ n

/-- A period that divides the modulus keeps its phase. -/
theorem due_iff_of_dvd (hM : p ∣ M) {a : Nat} (ha : (c + a) % M % p = 0) {t : Nat} (hat : a ≤ t) :
    (c + t) % M % p = 0 ↔ p ∣ t - a := by
  rw [Nat.mod_mod_of_dvd _ hM] at ha ⊢
  have hsum : c + t = c + a + (t - a) := by omega
  rw [← Nat.dvd_iff_mod_eq_zero, hsum]
  exact Nat.dvd_add_right (Nat.dvd_of_mod_eq_zero ha)

/-- Within one lap the phase is kept. -/
theorem due_iff_of_lap {q a t : Nat} (hlo : q * M ≤ c + a) (hat : a ≤ t)
    (hhi : c + t < (q + 1) * M) (ha : (c + a) % M % p = 0) :
    (c + t) % M % p = 0 ↔ p ∣ t - a := by
  have hlap : ∀ x, q * M ≤ x → x < (q + 1) * M → x % M = x - q * M := by
    intro x hx hx'
    have hsub : x = x - q * M + q * M := by omega
    rw [Nat.add_mul, Nat.one_mul] at hx'
    conv_lhs => rw [hsub, Nat.add_mul_mod_self_right]
    exact Nat.mod_eq_of_lt (by omega)
  rw [hlap _ hlo (by omega)] at ha
  have hsum : c + t - q * M = c + a - q * M + (t - a) := by omega
  rw [hlap _ (by omega) hhi, ← Nat.dvd_iff_mod_eq_zero, hsum]
  exact Nat.dvd_add_right (Nat.dvd_of_mod_eq_zero ha)

/-- The last multiple of a lap and the wrap after it are consecutive. -/
theorem consecutive_wrap {q : Nat} (hr : 0 < M % p) (hpM : 0 < p) (hlo : c + M % p ≤ (q + 1) * M) :
    Consecutive (fun t => (c + t) % M % p = 0) ((q + 1) * M - M % p - c) ((q + 1) * M - c) := by
  have hlap : (q + 1) * M = q * M + M := by rw [Nat.add_mul, Nat.one_mul]
  have hdiv := Nat.div_add_mod M p
  have hrp : M % p < p := Nat.mod_lt M hpM
  have hMle : M % p ≤ M := Nat.mod_le M p
  -- the counter shows `M - M % p + y` at `y` ticks after the last multiple
  have hshow : ∀ y, y < M % p → (q * M + (M - M % p + y)) % M % p = y := by
    intro y hy
    have hlow : M - M % p + y < M := by omega
    have hmul : M - M % p + y = p * (M / p) + y := by omega
    rw [Nat.mul_add_mod', Nat.mod_eq_of_lt hlow, hmul, Nat.mul_add_mod]
    exact Nat.mod_eq_of_lt (by omega)
  constructor
  · omega
  · have hat : c + ((q + 1) * M - M % p - c) = q * M + (M - M % p + 0) := by omega
    simpa [hat] using hshow 0 hr
  · have hat : c + ((q + 1) * M - c) = (q + 1) * M := by omega
    simp [hat]
  · intro x hx hx' hdue
    obtain ⟨y, hy⟩ : ∃ y, c + x = q * M + (M - M % p + y) :=
      ⟨c + x - (q * M + (M - M % p)), by omega⟩
    rw [hy, hshow y (by omega)] at hdue
    omega

/-- Every two consecutive multiples among the first `n` times are a period apart exactly when the
    period divides the modulus, or no wrap falls into these times, or one does but the lap before it
    has no multiple left. -/
theorem dueTimes_isChain_iff (hp : 0 < p) (hpM : p ≤ M) (hc : c < M) :
    (dueTimes M p c n).IsChain (fun a b => b = a + p) ↔
      p ∣ M ∨ c + n ≤ M ∨ (M - M % p < c ∧ c + n ≤ 2 * M) := by
  rw [dueTimes, isChain_filter_range_iff]
  have hrp : M % p < p := Nat.mod_lt M hp
  constructor
  · intro h
    by_cases hdvd : p ∣ M
    · exact .inl hdvd
    have hr : 0 < M % p := Nat.pos_of_ne_zero fun h0 => hdvd (Nat.dvd_of_mod_eq_zero h0)
    -- a wrap among the times would make two multiples `M % p` apart
    have hwrap : ∀ q, c + M % p ≤ (q + 1) * M → c + n ≤ (q + 1) * M := by
      intro q hlo
      by_contra hlt
      have hstep := h _ _ (by omega) (consecutive_wrap hr hp hlo)
      omega
    have h1 := hwrap 0
    have h2 := hwrap 1
    omega
  · rintro (hdvd | hcase) a b hb hab
    · exact hab.eq_add hp fun t hat _ => due_iff_of_dvd hdvd hab.left hat
    · have hlt := hab.lt
      have hleft := hab.left
      by_cases hfirst : c + b < M
      · exact hab.eq_add hp fun t hat htb =>
          due_iff_of_lap (q := 0) (by omega) hat (by omega) hleft
      · -- no multiple is left in the first lap, so both fall into the second one
        have ha : M ≤ c + a := by
          by_contra hlow
          have hlow' : c + a < M := by omega
          simp only [Nat.mod_eq_of_lt hlow'] at hleft
          obtain ⟨k, hk⟩ := Nat.dvd_of_mod_eq_zero hleft
          have hdiv := Nat.div_add_mod M p
          have hk' : k ≤ M / p := by
            rw [Nat.le_div_iff_mul_le hp, Nat.mul_comm, ← hk]
            omega
          have hmul : p * k ≤ p * (M / p) := Nat.mul_le_mul_left p hk'
          omega
        exact hab.eq_add hp fun t hat htb =>
          due_iff_of_lap (q := 1) (by omega) hat (by omega) hleft

end Wrap

end Lib.Periodic
