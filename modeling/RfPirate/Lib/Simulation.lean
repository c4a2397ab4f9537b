/-
Module: RfPirate.Lib.Simulation
Layer: Lib
Purpose: One machine simulates another one. A step of the concrete machine is a run of the abstract
  one, of any length, over labels of a kind, and what an observer sees of the two is related. Runs
  are then runs, so that what is proved of all runs of the abstract machine holds of the concrete
  one.
Main exports: Machine.Composes, Machine.Simulates, Machine.Simulates.run,
  Machine.guarded_of_forall_mem
-/
import RfPirate.Lib.Machine

namespace Lib.Machine

universe u v w u' v' w'

variable {σ : Type u} {ι : Type v} {ω : Type w} {σ' : Type u'} {ι' : Type v'} {ω' : Type w'}

/-- A relation of traces that holds of traces if it holds of their parts. -/
structure Composes (shows : List ω → List ω' → Prop) : Prop where
  nil : shows [] []
  append : ∀ {o o' x x'}, shows o x → shows o' x' → shows (o ++ o') (x ++ x')

/-- From related states, each concrete step is an abstract run over labels of the kind that leads to
    related states, and the observations of the two are related. -/
def Simulates (concrete : Step σ ι ω) (abstract : Step σ' ι' ω') (rel : σ → σ' → Prop)
    (kind : ι' → Prop) (shows : List ω → List ω' → Prop) : Prop :=
  ∀ s t i s₁ o, rel s t → concrete s i = some (s₁, o) →
    ∃ js t₁ x, (∀ j ∈ js, kind j) ∧ run abstract t js = some (t₁, x) ∧ shows o x ∧ rel s₁ t₁

variable {concrete : Step σ ι ω} {abstract : Step σ' ι' ω'} {rel : σ → σ' → Prop}
  {kind : ι' → Prop} {shows : List ω → List ω' → Prop}

/-- So every concrete run is an abstract run. -/
theorem Simulates.run (h : Simulates concrete abstract rel kind shows) (hshows : Composes shows)
    {is : List ι} {s s' : σ} {t : σ'} {o : List ω} (hrel : rel s t)
    (hrun : Machine.run concrete s is = some (s', o)) :
    ∃ js t' x, (∀ j ∈ js, kind j) ∧ Machine.run abstract t js = some (t', x) ∧ shows o x ∧
      rel s' t' := by
  induction is generalizing s t o with
  | nil =>
      cases hrun
      exact ⟨[], t, [], fun j hj => absurd hj List.not_mem_nil, rfl, hshows.nil, hrel⟩
  | cons i is ih =>
      obtain ⟨s₁, o₁, o₂, hstep, hrest, rfl⟩ := run_cons_inv hrun
      obtain ⟨js₁, t₁, x₁, hkind₁, hrun₁, hshown₁, hrel₁⟩ := h s t i s₁ o₁ hrel hstep
      obtain ⟨js₂, t₂, x₂, hkind₂, hrun₂, hshown₂, hrel₂⟩ := ih hrel₁ hrest
      refine ⟨js₁ ++ js₂, t₂, x₁ ++ x₂, fun j hj => ?_, run_append hrun₁ hrun₂,
        hshows.append hshown₁ hshown₂, hrel₂⟩
      rcases List.mem_append.mp hj with hj | hj
      · exact hkind₁ j hj
      · exact hkind₂ j hj

/-- A guard that looks at the labels only. -/
theorem guarded_of_forall_mem {step : Step σ ι ω} {kind : ι → Prop} {is : List ι}
    (h : ∀ i ∈ is, kind i) (s : σ) : Guarded step (fun _ i => kind i) s is := by
  induction is generalizing s with
  | nil => trivial
  | cons i is ih =>
      exact ⟨h i List.mem_cons_self, fun s₁ _ _ =>
        ih (fun j hj => h j (List.mem_cons_of_mem i hj)) s₁⟩

end Lib.Machine
