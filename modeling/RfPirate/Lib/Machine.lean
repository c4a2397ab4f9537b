/-
Module: RfPirate.Lib.Machine
Layer: Lib
Purpose: Labelled machines with outputs. A step reads a label, may get stuck, and emits a list of
  observations; a run is a list of labels. The two rules every run theorem uses are here: an
  invariant over state and emitted trace holds after every run, and it holds after every run whose
  steps all meet a guard.
Main exports: Machine.Step, Machine.run, Machine.Guarded, Machine.After, Machine.run_induction,
  Machine.run_guarded_induction, Machine.guarded_iff, Machine.Guarded.imp,
  Machine.guarded_iff_of_run, Machine.Reaches
-/
import Mathlib.Data.List.Basic

namespace Lib.Machine

universe u v w

/-- A step of a labelled machine: next state and emitted observations, or `none` when the machine
    has no step under that label. -/
abbrev Step (σ : Type u) (ι : Type v) (ω : Type w) := σ → ι → Option (σ × List ω)

variable {σ : Type u} {ι : Type v} {ω : Type w}

/-- Run a list of labels, collecting the observations in order. -/
def run (step : Step σ ι ω) : σ → List ι → Option (σ × List ω)
  | s, [] => some (s, [])
  | s, i :: is =>
      match step s i with
      | none => none
      | some (s₁, o₁) =>
          match run step s₁ is with
          | none => none
          | some (s₂, o₂) => some (s₂, o₁ ++ o₂)

/-- Every label of the run is taken in a state where the guard allows it. -/
def Guarded (step : Step σ ι ω) (ok : σ → ι → Prop) : σ → List ι → Prop
  | _, [] => True
  | s, i :: is => ok s i ∧ ∀ s₁ o₁, step s i = some (s₁, o₁) → Guarded step ok s₁ is

/-- Whatever state the step reaches is a good one. -/
def After (step : Step σ ι ω) (good : σ → Prop) (s : σ) (i : ι) : Prop :=
  ∀ s₁ o₁, step s i = some (s₁, o₁) → good s₁

variable {step : Step σ ι ω}

theorem after_iff_forall_mem {good : σ → Prop} {s : σ} {i : ι} :
    After step good s i ↔ ∀ p ∈ step s i, good p.1 :=
  ⟨fun h p hp => h p.1 p.2 hp, fun h s₁ o₁ hp => h (s₁, o₁) hp⟩

instance After.decidable {good : σ → Prop} [DecidablePred good] (s : σ) (i : ι) :
    Decidable (After step good s i) :=
  match h : step s i with
  | none => isTrue fun _ _ hp => by rw [h] at hp; cases hp
  | some p =>
      decidable_of_iff (good p.1) <| by
        rw [after_iff_forall_mem, h]
        simp

instance Guarded.decidable {ok : σ → ι → Prop} [∀ s i, Decidable (ok s i)] :
    ∀ (s : σ) (is : List ι), Decidable (Guarded step ok s is)
  | _, [] => isTrue trivial
  | s, i :: is =>
      have : DecidablePred fun s₁ => Guarded step ok s₁ is := fun s₁ => Guarded.decidable s₁ is
      inferInstanceAs (Decidable (ok s i ∧ After step (fun s₁ => Guarded step ok s₁ is) s i))

@[simp] theorem run_nil (s : σ) : run step s [] = some (s, []) := rfl

theorem run_cons_inv {s s' : σ} {i : ι} {is : List ι} {o : List ω}
    (h : run step s (i :: is) = some (s', o)) :
    ∃ s₁ o₁ o₂, step s i = some (s₁, o₁) ∧ run step s₁ is = some (s', o₂) ∧ o = o₁ ++ o₂ := by
  simp only [run] at h
  cases hstep : step s i with
  | none => simp [hstep] at h
  | some p =>
      obtain ⟨s₁, o₁⟩ := p
      cases hrest : run step s₁ is with
      | none => simp [hstep, hrest] at h
      | some q =>
          obtain ⟨s₂, o₂⟩ := q
          simp only [hstep, hrest, Option.some.injEq, Prod.mk.injEq] at h
          obtain ⟨rfl, rfl⟩ := h
          exact ⟨s₁, o₁, o₂, rfl, hrest, rfl⟩

theorem run_cons {s s₁ s₂ : σ} {i : ι} {is : List ι} {o₁ o₂ : List ω}
    (hstep : step s i = some (s₁, o₁)) (hrest : run step s₁ is = some (s₂, o₂)) :
    run step s (i :: is) = some (s₂, o₁ ++ o₂) := by
  simp only [run, hstep, hrest]

/-- A run from where another one ends goes on with it. -/
theorem run_append {is js : List ι} {s s₁ s₂ : σ} {o₁ o₂ : List ω}
    (h₁ : run step s is = some (s₁, o₁)) (h₂ : run step s₁ js = some (s₂, o₂)) :
    run step s (is ++ js) = some (s₂, o₁ ++ o₂) := by
  induction is generalizing s o₁ with
  | nil =>
      cases h₁
      exact h₂
  | cons i is ih =>
      obtain ⟨s', o, o', hstep, hrest, rfl⟩ := run_cons_inv h₁
      rw [List.append_assoc]
      exact run_cons hstep (ih hrest)

theorem run_append_inv {is js : List ι} {s s' : σ} {o : List ω}
    (h : run step s (is ++ js) = some (s', o)) :
    ∃ s₁ o₁ o₂, run step s is = some (s₁, o₁) ∧ run step s₁ js = some (s', o₂) := by
  induction is generalizing s o with
  | nil => exact ⟨s, [], o, rfl, h⟩
  | cons i is ih =>
      obtain ⟨s₁, o₁, o₂, hstep, hrest, -⟩ := run_cons_inv h
      obtain ⟨s₂, o₃, o₄, hfirst, hlater⟩ := ih hrest
      exact ⟨s₂, o₁ ++ o₃, o₄, run_cons hstep hfirst, hlater⟩

/-- What is left of a guarded run behind its first part is guarded. -/
theorem Guarded.of_append {ok : σ → ι → Prop} : ∀ {is js : List ι} {s s' : σ} {o : List ω},
    Guarded step ok s (is ++ js) → run step s is = some (s', o) → Guarded step ok s' js
  | [], _, _, _, _, h, hrun => by
      cases hrun
      exact h
  | _ :: _, _, _, _, _, h, hrun => by
      obtain ⟨s₁, o₁, o₂, hstep, hrest, -⟩ := run_cons_inv hrun
      exact (h.2 s₁ o₁ hstep).of_append hrest

/-- The guarded induction rule, with the trace emitted so far as an accumulator. -/
theorem run_guarded_induction_from (ok : σ → ι → Prop) {inv : σ → List ω → Prop}
    (hstep : ∀ s o i s₁ o₁, inv s o → ok s i → step s i = some (s₁, o₁) → inv s₁ (o ++ o₁)) :
    ∀ {is : List ι} {s s' : σ} {o o' : List ω}, inv s o → Guarded step ok s is →
      run step s is = some (s', o') → inv s' (o ++ o')
  | [], s, s', o, o', hinv, _, hrun => by
      simp only [run_nil, Option.some.injEq, Prod.mk.injEq] at hrun
      obtain ⟨rfl, rfl⟩ := hrun
      simpa using hinv
  | i :: is, s, s', o, o', hinv, hok, hrun => by
      obtain ⟨s₁, o₁, o₂, h₁, h₂, rfl⟩ := run_cons_inv hrun
      have hinv₁ : inv s₁ (o ++ o₁) := hstep s o i s₁ o₁ hinv hok.1 h₁
      have hrest := run_guarded_induction_from ok hstep hinv₁ (hok.2 s₁ o₁ h₁) h₂
      simpa [List.append_assoc] using hrest

/-- An invariant that every guarded step keeps holds after every guarded run. -/
theorem run_guarded_induction (ok : σ → ι → Prop) {inv : σ → List ω → Prop}
    (hstep : ∀ s o i s₁ o₁, inv s o → ok s i → step s i = some (s₁, o₁) → inv s₁ (o ++ o₁))
    {is : List ι} {s s' : σ} {o : List ω} (hinit : inv s []) (hok : Guarded step ok s is)
    (hrun : run step s is = some (s', o)) : inv s' o := by
  simpa using run_guarded_induction_from ok hstep hinit hok hrun

theorem guarded_true (s : σ) (is : List ι) : Guarded step (fun _ _ => True) s is := by
  induction is generalizing s with
  | nil => trivial
  | cons i is ih => exact ⟨trivial, fun s₁ _ _ => ih s₁⟩

/-- An invariant that every step keeps holds after every run. -/
theorem run_induction {inv : σ → List ω → Prop}
    (hstep : ∀ s o i s₁ o₁, inv s o → step s i = some (s₁, o₁) → inv s₁ (o ++ o₁))
    {is : List ι} {s s' : σ} {o : List ω} (hinit : inv s [])
    (hrun : run step s is = some (s', o)) : inv s' o :=
  run_guarded_induction (fun _ _ => True)
    (fun s o i s₁ o₁ hinv _ h => hstep s o i s₁ o₁ hinv h) hinit (guarded_true s is) hrun

/-- If, in the states an invariant describes and for labels of a kind, one guard is equivalent to
    another, and steps allowed by it keep the invariant, then the same runs over such labels are
    guarded by both. -/
theorem guarded_iff_of_mem (kind : ι → Prop) {ok law : σ → ι → Prop} {inv : σ → Prop}
    (hiff : ∀ s i, inv s → kind i → (law s i ↔ ok s i))
    (hstep : ∀ s i s₁ o₁, inv s → kind i → ok s i → step s i = some (s₁, o₁) → inv s₁) :
    ∀ {is : List ι} {s : σ}, inv s → (∀ i ∈ is, kind i) →
      (Guarded step law s is ↔ Guarded step ok s is)
  | [], _, _, _ => Iff.rfl
  | i :: is, s, hinv, hkind => by
      have hi : kind i := hkind i List.mem_cons_self
      have his : ∀ j ∈ is, kind j := fun j hj => hkind j (List.mem_cons_of_mem i hj)
      constructor
      · rintro ⟨hlaw, hrest⟩
        have hok := (hiff s i hinv hi).mp hlaw
        refine ⟨hok, fun s₁ o₁ h₁ => ?_⟩
        exact (guarded_iff_of_mem kind hiff hstep (hstep s i s₁ o₁ hinv hi hok h₁) his).mp
          (hrest s₁ o₁ h₁)
      · rintro ⟨hok, hrest⟩
        refine ⟨(hiff s i hinv hi).mpr hok, fun s₁ o₁ h₁ => ?_⟩
        exact (guarded_iff_of_mem kind hiff hstep (hstep s i s₁ o₁ hinv hi hok h₁) his).mpr
          (hrest s₁ o₁ h₁)

/-- If, in the states an invariant describes, one guard is equivalent to another, and steps allowed
    by it keep the invariant, then the same runs are guarded by both. -/
theorem guarded_iff {ok law : σ → ι → Prop} {inv : σ → Prop}
    (hiff : ∀ s i, inv s → (law s i ↔ ok s i))
    (hstep : ∀ s i s₁ o₁, inv s → ok s i → step s i = some (s₁, o₁) → inv s₁)
    {is : List ι} {s : σ} (hinv : inv s) : Guarded step law s is ↔ Guarded step ok s is :=
  guarded_iff_of_mem (fun _ => True) (fun s i h _ => hiff s i h)
    (fun s i s₁ o₁ h _ => hstep s i s₁ o₁ h) hinv fun _ _ => trivial

/-- If guarded steps from states of the invariant obey a law and keep the invariant, every step of
    a guarded run over labels of a kind obeys the law. -/
theorem Guarded.imp_of_mem (kind : ι → Prop) {ok law : σ → ι → Prop} {inv : σ → Prop}
    (hlaw : ∀ s i, inv s → kind i → ok s i → law s i)
    (hstep : ∀ s i s₁ o₁, inv s → kind i → ok s i → step s i = some (s₁, o₁) → inv s₁) :
    ∀ {is : List ι} {s : σ}, inv s → (∀ i ∈ is, kind i) → Guarded step ok s is →
      Guarded step law s is
  | [], _, _, _, _ => trivial
  | i :: _, s, hinv, hkind, h =>
      have hi : kind i := hkind i List.mem_cons_self
      ⟨hlaw s i hinv hi h.1, fun s₁ o₁ h₁ =>
        Guarded.imp_of_mem kind hlaw hstep (hstep s i s₁ o₁ hinv hi h.1 h₁)
          (fun j hj => hkind j (List.mem_cons_of_mem i hj)) (h.2 s₁ o₁ h₁)⟩

/-- If guarded steps from states of the invariant obey a law and keep the invariant, every step of
    a guarded run obeys the law. -/
theorem Guarded.imp {ok law : σ → ι → Prop} {inv : σ → Prop}
    (hlaw : ∀ s i, inv s → ok s i → law s i)
    (hstep : ∀ s i s₁ o₁, inv s → ok s i → step s i = some (s₁, o₁) → inv s₁)
    {is : List ι} {s : σ} (hinv : inv s) (h : Guarded step ok s is) : Guarded step law s is :=
  Guarded.imp_of_mem (fun _ => True) (fun s i hi _ => hlaw s i hi)
    (fun s i s₁ o₁ hi _ => hstep s i s₁ o₁ hi) hinv (fun _ _ => trivial) h

/-- Every step of a run that goes to its end is taken. -/
theorem guarded_isSome_of_run {is : List ι} {s : σ} (h : (run step s is).isSome) :
    Guarded step (fun s i => (step s i).isSome) s is := by
  obtain ⟨⟨s', o⟩, hrun⟩ := Option.isSome_iff_exists.mp h
  clear h
  induction is generalizing s o with
  | nil => trivial
  | cons i is ih =>
      obtain ⟨s₁, o₁, o₂, hstep, hrest, -⟩ := run_cons_inv hrun
      refine ⟨by simp [hstep], fun s₂ o' hstep' => ?_⟩
      cases hstep.symm.trans hstep'
      exact ih o₂ hrest

theorem Guarded.and {ok ok' : σ → ι → Prop} : ∀ {is : List ι} {s : σ}, Guarded step ok s is →
    Guarded step ok' s is → Guarded step (fun s i => ok s i ∧ ok' s i) s is
  | [], _, _, _ => trivial
  | _ :: _, _, h, h' => ⟨⟨h.1, h'.1⟩, fun s₁ o₁ h₁ => (h.2 s₁ o₁ h₁).and (h'.2 s₁ o₁ h₁)⟩

/-- If, in the states an invariant describes, a guard is enough for a law and is needed for it where
    the step is taken, and steps that obey the law keep the invariant, then a guarded run obeys the
    law, and a run that goes to its end obeys it in no other case. -/
theorem guarded_iff_of_run {ok law : σ → ι → Prop} {inv : σ → Prop}
    (hlaw : ∀ s i, inv s → ok s i → law s i)
    (hok : ∀ s i, inv s → (step s i).isSome → law s i → ok s i)
    (hstep : ∀ s i s₁ o₁, inv s → law s i → step s i = some (s₁, o₁) → inv s₁)
    {s : σ} (hinv : inv s) (is : List ι) :
    (Guarded step ok s is → Guarded step law s is) ∧
      ((run step s is).isSome → (Guarded step law s is ↔ Guarded step ok s is)) := by
  have hsafe : Guarded step ok s is → Guarded step law s is :=
    Guarded.imp hlaw (fun s i s₁ o₁ h hi => hstep s i s₁ o₁ h (hlaw s i h hi)) hinv
  refine ⟨hsafe, fun hreturns => ⟨fun h => ?_, hsafe⟩⟩
  exact Guarded.imp (fun s i hs hboth => hok s i hs hboth.2 hboth.1)
    (fun s i s₁ o₁ hs hboth => hstep s i s₁ o₁ hs hboth.1) hinv
    (h.and (guarded_isSome_of_run hreturns))

/-! ### Reachable states -/

/-- Some run leads from one state to the other. -/
def Reaches (step : Step σ ι ω) (s s' : σ) : Prop := ∃ is o, run step s is = some (s', o)

theorem Reaches.refl (s : σ) : Reaches step s s := ⟨[], [], rfl⟩

theorem Reaches.head {s s₁ s' : σ} (i : ι) (h : (step s i).map Prod.fst = some s₁)
    (hrest : Reaches step s₁ s') : Reaches step s s' := by
  obtain ⟨⟨_, o₁⟩, hstep, rfl⟩ := Option.map_eq_some_iff.mp h
  obtain ⟨is, o₂, hrun⟩ := hrest
  exact ⟨i :: is, o₁ ++ o₂, run_cons hstep hrun⟩

theorem Reaches.trans {s s₁ s' : σ} (h : Reaches step s s₁) (h' : Reaches step s₁ s') :
    Reaches step s s' := by
  obtain ⟨is, o, hrun⟩ := h
  induction is generalizing s o with
  | nil =>
      cases hrun
      exact h'
  | cons i is ih =>
      obtain ⟨s₂, o₁, o₂, hstep, hrest, -⟩ := run_cons_inv hrun
      exact .head i (by rw [hstep]; rfl) (ih o₂ hrest)

end Lib.Machine
