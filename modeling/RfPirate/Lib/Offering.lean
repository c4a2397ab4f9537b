/-
Module: RfPirate.Lib.Offering
Layer: Lib
Purpose: An event offered to handlers in turn, until one of them consumes it. A handler says whether
  it does, and may not return. The rules say what an offering keeps and that it ends, and how it
  goes on behind its first handler.
Main exports: offerTo, offerTo_consumed, offerTo_passed, offerTo_keeps, offerTo_total
-/
import Mathlib.Data.List.Basic

namespace Lib

universe u v

variable {κ : Type u} {σ : Type v}

/-- The state after the offering, and the handlers that were called. -/
def offerTo (call : κ → σ → Option (Bool × σ)) : List κ → σ → Option (σ × List κ)
  | [], s => some (s, [])
  | k :: ks, s =>
      match call k s with
      | none => none
      | some (true, s') => some (s', [k])
      | some (false, s') => (offerTo call ks s').map fun r => (r.1, k :: r.2)

variable {call : κ → σ → Option (Bool × σ)} {k : κ} {ks : List κ} {s s' : σ}

/-- A handler that consumes the event is the last one called. -/
theorem offerTo_consumed (h : call k s = some (true, s')) :
    offerTo call (k :: ks) s = some (s', [k]) := by
  rw [offerTo, h]

theorem offerTo_passed (h : call k s = some (false, s')) :
    offerTo call (k :: ks) s = (offerTo call ks s').map fun r => (r.1, k :: r.2) := by
  rw [offerTo, h]

/-- An offering keeps what every handler keeps. -/
theorem offerTo_keeps {inv : σ → Prop}
    (hcall : ∀ k ∈ ks, ∀ s r, inv s → call k s = some r → inv r.2) {r : σ × List κ}
    (hs : inv s) (h : offerTo call ks s = some r) : inv r.1 := by
  induction ks generalizing s r with
  | nil =>
      cases h
      exact hs
  | cons k ks ih =>
      rw [offerTo] at h
      split at h
      · cases h
      · rename_i s' heq
        cases h
        exact hcall k List.mem_cons_self s _ hs heq
      · rename_i s' heq
        obtain ⟨r', hrest, rfl⟩ := Option.map_eq_some_iff.mp h
        have hs' : inv s' := hcall k List.mem_cons_self s _ hs heq
        show inv r'.1
        exact ih (fun k hk => hcall k (List.mem_cons_of_mem _ hk)) hs' hrest

/-- An offering ends if every handler returns from the states that the handlers keep. -/
theorem offerTo_total {inv : σ → Prop}
    (hcall : ∀ k ∈ ks, ∀ s, inv s → ∃ r, call k s = some r ∧ inv r.2) (hs : inv s) :
    (offerTo call ks s).isSome := by
  induction ks generalizing s with
  | nil => rfl
  | cons k ks ih =>
      obtain ⟨⟨consumed, s'⟩, heq, hs'⟩ := hcall k List.mem_cons_self s hs
      have hrest := ih (fun k hk => hcall k (List.mem_cons_of_mem _ hk)) hs'
      cases consumed with
      | true => rw [offerTo_consumed heq, Option.isSome_some]
      | false => rwa [offerTo_passed heq, Option.isSome_map]

end Lib
