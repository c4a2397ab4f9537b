/-
Module: RfPirate.Lib.Chain
Layer: Lib
Purpose: Singly linked chains of nodes, and stacks kept as such a chain in a pool whose free nodes
  are the ones without a key.
Main exports: Chain, Chain.congr, PoolStack, PoolStack.push, PoolStack.pop,
  PoolStack.length_lt_card, PoolStack.length_eq_card
-/
import Mathlib.Data.Fintype.Card
import Mathlib.Data.List.Nodup
import Mathlib.Logic.Function.Basic

namespace Lib

universe u v

variable {ι : Type u} {κ : Type v}

/-- Following `next` from a pointer visits the nodes `ns` and ends in NULL. -/
inductive Chain (next : ι → Option ι) : Option ι → List ι → Prop where
  | nil : Chain next none []
  | cons {n : ι} {ns : List ι} (rest : Chain next (next n) ns) : Chain next (some n) (n :: ns)

theorem Chain.congr {next next' : ι → Option ι} {p : Option ι} {ns : List ι}
    (h : Chain next p ns) (hsame : ∀ n ∈ ns, next' n = next n) : Chain next' p ns := by
  induction h with
  | nil => exact .nil
  | cons rest ih =>
      apply Chain.cons
      rw [hsame _ List.mem_cons_self]
      exact ih fun n hn => hsame n (List.mem_cons_of_mem _ hn)

/-- A stack with the keys `ks`, top first, in the nodes `ns` of a pool. Exactly the other nodes are
    free. -/
structure PoolStack (key : ι → Option κ) (next : ι → Option ι) (head : Option ι) (ns : List ι)
    (ks : List κ) : Prop where
  chain : Chain next head ns
  nodup : ns.Nodup
  keys : ns.map key = ks.map some
  free : ∀ n, key n = none ↔ n ∉ ns

namespace PoolStack

variable {key : ι → Option κ} {next : ι → Option ι} {head : Option ι} {ns : List ι} {ks : List κ}

theorem length_eq (h : PoolStack key next head ns ks) : ns.length = ks.length := by
  simpa using congrArg List.length h.keys

theorem empty (hkey : ∀ n, key n = none) : PoolStack key next none [] [] where
  chain := .nil
  nodup := List.nodup_nil
  keys := rfl
  free n := by simp [hkey n]

/-- A free node becomes the new top. -/
theorem push [DecidableEq ι] (h : PoolStack key next head ns ks) {n : ι} (hfree : key n = none)
    (k : κ) :
    PoolStack (Function.update key n (some k)) (Function.update next n head) (some n) (n :: ns)
      (k :: ks) := by
  have hn : n ∉ ns := (h.free n).mp hfree
  have hne : ∀ m ∈ ns, m ≠ n := by
    intro m hm heq
    subst heq
    exact hn hm
  constructor
  · apply Chain.cons
    rw [Function.update_self]
    exact h.chain.congr fun m hm => Function.update_of_ne (hne m hm) _ _
  · exact List.nodup_cons.mpr ⟨hn, h.nodup⟩
  · rw [List.map_cons, List.map_cons, Function.update_self, ← h.keys]
    congr 1
    exact List.map_congr_left fun m hm => Function.update_of_ne (hne m hm) _ _
  · intro m
    by_cases hm : m = n
    · subst hm
      simp
    · rw [Function.update_of_ne hm, h.free m, List.mem_cons]
      simp [hm]

/-- The top node becomes free. -/
theorem pop [DecidableEq ι] {k : κ} (h : PoolStack key next head ns (k :: ks)) :
    ∃ n ns', head = some n ∧ ns = n :: ns' ∧
      PoolStack (Function.update key n none) next (next n) ns' ks := by
  obtain ⟨hchain, hnodup, hkeys, hfree⟩ := h
  cases hchain with
  | nil => simp at hkeys
  | @cons n ns rest =>
      have hn : n ∉ ns := (List.nodup_cons.mp hnodup).1
      refine ⟨n, ns, rfl, rfl, rest, (List.nodup_cons.mp hnodup).2, ?_, ?_⟩
      · rw [List.map_cons, List.map_cons] at hkeys
        rw [← (List.cons.inj hkeys).2]
        apply List.map_congr_left
        intro m hm
        apply Function.update_of_ne
        rintro rfl
        exact hn hm
      · intro m
        by_cases hm : m = n
        · subst hm
          simp [hn]
        · rw [Function.update_of_ne hm, hfree m, List.mem_cons]
          simp [hm]

/-- The key of the top node. -/
theorem head_key {k : κ} (h : PoolStack key next head ns (k :: ks)) :
    ∃ n, head = some n ∧ key n = some k := by
  obtain ⟨hchain, -, hkeys, -⟩ := h
  cases hchain with
  | nil => simp at hkeys
  | @cons n ns rest =>
      rw [List.map_cons, List.map_cons] at hkeys
      exact ⟨n, rfl, (List.cons.inj hkeys).1⟩

theorem head_eq_none (h : PoolStack key next head ns []) : head = none := by
  obtain ⟨hchain, -, hkeys, -⟩ := h
  cases hchain with
  | nil => rfl
  | cons rest => simp at hkeys

/-- A stack that leaves a node free is smaller than the pool. -/
theorem length_lt_card [Fintype ι] (h : PoolStack key next head ns ks) {n : ι}
    (hfree : key n = none) : ks.length < Fintype.card ι := by
  have hnodup : (n :: ns).Nodup := List.nodup_cons.mpr ⟨(h.free n).mp hfree, h.nodup⟩
  have hle := hnodup.length_le_card
  rw [List.length_cons, h.length_eq] at hle
  exact hle

/-- A stack without a free node fills the pool. -/
theorem length_eq_card [Fintype ι] (h : PoolStack key next head ns ks)
    (hfull : ∀ n, key n ≠ none) : ks.length = Fintype.card ι := by
  classical
  have huniv : ns.toFinset = Finset.univ := by
    apply Finset.eq_univ_of_forall
    intro n
    rw [List.mem_toFinset]
    by_contra hn
    exact hfull n ((h.free n).mpr hn)
  rw [← h.length_eq, ← List.toFinset_card_of_nodup h.nodup, huniv, Finset.card_univ]

theorem length_le_card [Fintype ι] (h : PoolStack key next head ns ks) :
    ks.length ≤ Fintype.card ι := by
  rw [← h.length_eq]
  exact h.nodup.length_le_card

end PoolStack

end Lib
