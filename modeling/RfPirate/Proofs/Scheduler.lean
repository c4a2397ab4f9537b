/-
Module: RfPirate.Proofs.Scheduler
Layer: Proofs
Purpose: When the table of clients is fit for the modulo of the timer interrupt. Each assignment of
  main's operations either keeps every registered client's period other than 0 or does not, and an
  interrupt may come before the next one.
Main exports: SlotOk.register, SlotOk.deregister, TableStep, SchedulerLaw, SchedulerOk, QuietInv,
  OutsideInv, scheduler_sane_iff
-/
import RfPirate.Proofs.Timetick

namespace RfPirate

open Lib Lib.Machine

/-! ### The assignments of an operation -/

section Slots

variable {client : ClientTable} {c i : ClientPtr}

theorem setCb_of_ne (h : i ≠ c) (cb : Option TimetickCb) : client.setCb c cb i = client i :=
  Function.update_of_ne h _ _

theorem setTicks_of_ne (h : i ≠ c) (ticks : UInt16) : client.setTicks c ticks i = client i :=
  Function.update_of_ne h _ _

@[simp] theorem setCb_self (cb : Option TimetickCb) :
    client.setCb c cb c = { client c with cb := cb } :=
  Function.update_self _ _ _

@[simp] theorem setTicks_self (ticks : UInt16) :
    client.setTicks c ticks c = { client c with ticks := ticks } :=
  Function.update_self _ _ _

/-- Assigning a client's fields concerns no other client. -/
theorem slotOk_setCb_of_ne (h : i ≠ c) (cb : Option TimetickCb) :
    SlotOk (client.setCb c cb) i ↔ SlotOk client i := by
  rw [SlotOk, SlotOk, setCb_of_ne h]

theorem slotOk_setTicks_of_ne (h : i ≠ c) (ticks : UInt16) :
    SlotOk (client.setTicks c ticks) i ↔ SlotOk client i := by
  rw [SlotOk, SlotOk, setTicks_of_ne h]

theorem SlotOk.setCb_none (h : SlotOk client i) : SlotOk (client.setCb c none) i := by
  by_cases hi : i = c
  · subst hi
    simp [SlotOk]
  · exact (slotOk_setCb_of_ne hi none).mpr h

theorem SlotOk.setTicks {ticks : UInt16} (hticks : ticks ≠ 0) (h : i ≠ c → SlotOk client i) :
    SlotOk (client.setTicks c ticks) i := by
  by_cases hi : i = c
  · subst hi
    simp [SlotOk, hticks]
  · exact (slotOk_setTicks_of_ne hi ticks).mpr (h hi)

theorem SlotOk.clearTicks (hfree : (client c).cb = none) (h : SlotOk client i) :
    SlotOk (client.setTicks c 0) i := by
  by_cases hi : i = c
  · subst hi
    simp [SlotOk, hfree]
  · exact (slotOk_setTicks_of_ne hi 0).mpr h

/-- Both assignments of a registration. -/
theorem SlotOk.register (h : SlotOk client i) (cb : Option TimetickCb) {ticks : UInt16}
    (hticks : ticks ≠ 0) : SlotOk (timetickRegister client cb ticks) i := by
  unfold timetickRegister
  split
  · exact h
  · exact .setTicks hticks fun hi => (slotOk_setCb_of_ne hi cb).mpr h

/-- Both assignments of a deregistration. -/
theorem SlotOk.deregister (h : SlotOk client i) (cb : Option TimetickCb) :
    SlotOk (timetickDeregister client cb) i := by
  unfold timetickDeregister
  split
  · exact h
  · exact .clearTicks (by simp) h.setCb_none

end Slots

/-- A registration has a callback and a period other than 0. -/
def TimetickAct.Registers : TimetickAct → Prop
  | .register cb ticks => cb ≠ none ∧ ticks ≠ 0
  | .callbackRegister cb ticks => cb ≠ none ∧ ticks ≠ 0
  | _ => True

/-- Nothing a callback does to the table. -/
def TimetickAct.FromMain : TimetickAct → Prop
  | .callbackRegister _ _ => False
  | .callbackDeregister _ => False
  | _ => True

instance : DecidablePred TimetickAct.Registers
  | .register cb ticks | .callbackRegister cb ticks =>
      inferInstanceAs (Decidable (cb ≠ none ∧ ticks ≠ 0))
  | .deregister _ | .assign | .interrupt | .loop | .callbackDeregister _ | .ret => isTrue trivial

instance : DecidablePred TimetickAct.FromMain
  | .callbackRegister _ _ | .callbackDeregister _ => isFalse id
  | .register _ _ | .deregister _ | .assign | .interrupt | .loop | .ret => isTrue trivial

/-- The operation main stands in was called with a callback and a period other than 0. -/
def MainOk : MainPc → Prop
  | .registerCb _ cb ticks => cb ≠ none ∧ ticks ≠ 0
  | .registerTicks _ ticks => ticks ≠ 0
  | _ => True

/-- What a step does to the table and to main's position. -/
inductive TableStep (s : Timetick) (act : TimetickAct) (s₁ : Timetick) : Prop where
  | call (isr : s.isr = none) (idle : s.main = .idle) (client : s₁.client = s.client)
      (main : s₁.main = .idle ∨
        (∃ c cb ticks, act = .register cb ticks ∧ (s.client c).cb = none ∧
          s₁.main = .registerCb c cb ticks) ∨
        ∃ c, s₁.main = .deregisterCb c)
  | assign (act : act = .assign) (isr : s.isr = none) (isr₁ : s₁.isr = none)
      (assign : assignStep s = some s₁)
  | isr (client : s₁.client = s.client) (main : s₁.main = s.main)
      (from_main : act = .interrupt ∨ s.isr ≠ none)
  | callback (isr : s.isr ≠ none) (main : s₁.main = s.main)
      (client : (∃ cb ticks, act = .callbackRegister cb ticks ∧
          s₁.client = timetickRegister s.client cb ticks) ∨
        ∃ cb, act = .callbackDeregister cb ∧ s₁.client = timetickDeregister s.client cb)

theorem assignStep_isr {s s₁ : Timetick} (h : assignStep s = some s₁) : s₁.isr = s.isr := by
  unfold assignStep at h
  split at h <;> cases h <;> rfl

theorem assign_inv {s s₁ : Timetick} {o : List TimetickObs}
    (h : timetickStep s .assign = some (s₁, o)) : s.isr = none ∧ assignStep s = some s₁ := by
  simp only [timetickStep] at h
  split at h
  · rename_i hisr
    obtain ⟨_, hassign, heq⟩ := Option.map_eq_some_iff.mp h
    cases heq
    exact ⟨hisr, hassign⟩
  · cases h

theorem isrStep_frame {s s₁ : Timetick} {i : Nat} {o : List TimetickObs}
    (h : isrStep s i = some (s₁, o)) : s₁.client = s.client ∧ s₁.main = s.main := by
  unfold isrStep at h
  split at h
  · simp only at h
    split at h
    · cases h
      exact ⟨rfl, rfl⟩
    · split at h
      · cases h
      · split at h <;> cases h <;> exact ⟨rfl, rfl⟩
  · cases h
    exact ⟨rfl, rfl⟩

theorem findClient_cb {client : ClientTable} {cb : Option TimetickCb} {c : ClientPtr}
    (h : findClient client cb = some c) : (client c).cb = cb := by
  simpa using List.find?_some h

theorem timetickStep_table {s s₁ : Timetick} {act : TimetickAct} {o : List TimetickObs}
    (hstep : timetickStep s act = some (s₁, o)) : TableStep s act s₁ := by
  cases act with
  | register cb period =>
      simp only [timetickStep] at hstep
      split at hstep <;> cases hstep
      rename_i hmain
      unfold registerCall
      split
      · exact .call hmain.1 hmain.2 rfl (.inl hmain.2)
      · rename_i c hfind
        exact .call hmain.1 hmain.2 rfl
          (.inr (.inl ⟨c, cb, period, rfl, findClient_cb hfind, rfl⟩))
  | deregister cb =>
      simp only [timetickStep] at hstep
      split at hstep <;> cases hstep
      rename_i hmain
      unfold deregisterCall
      split
      · exact .call hmain.1 hmain.2 rfl (.inl hmain.2)
      · rename_i c _
        exact .call hmain.1 hmain.2 rfl (.inr (.inr ⟨c, rfl⟩))
  | assign =>
      obtain ⟨hisr, hassign⟩ := assign_inv hstep
      exact .assign rfl hisr ((assignStep_isr hassign).trans hisr) hassign
  | interrupt =>
      simp only [timetickStep] at hstep
      split at hstep <;> cases hstep
      exact .isr rfl rfl (.inl rfl)
  | loop =>
      simp only [timetickStep] at hstep
      split at hstep
      · rename_i i hisr
        have hframe := isrStep_frame hstep
        exact .isr hframe.1 hframe.2 (.inr (by simp [hisr]))
      · cases hstep
  | callbackRegister cb period =>
      simp only [timetickStep] at hstep
      split at hstep <;> cases hstep
      rename_i i hisr
      exact .callback (by simp [hisr]) rfl (.inl ⟨cb, period, rfl, rfl⟩)
  | callbackDeregister cb =>
      simp only [timetickStep] at hstep
      split at hstep <;> cases hstep
      rename_i i hisr
      exact .callback (by simp [hisr]) rfl (.inr ⟨cb, rfl, rfl⟩)
  | ret =>
      simp only [timetickStep] at hstep
      split at hstep <;> cases hstep
      rename_i i hisr
      exact .isr rfl rfl (.inr (by simp [hisr]))

/-- The operation main stands in stays a proper one. -/
theorem TableStep.mainOk {s s₁ : Timetick} {act : TimetickAct} (h : TableStep s act s₁)
    (hreg : act.Registers) (hmain : MainOk s.main) : MainOk s₁.main := by
  cases h with
  | call _ _ _ hcall =>
      rcases hcall with hidle | ⟨c, cb, period, rfl, -, hpc⟩ | ⟨c, hpc⟩
      · rw [hidle]
        trivial
      · rw [hpc]
        exact hreg
      · rw [hpc]
        trivial
  | assign _ _ _ hassign =>
      cases hpc : s.main with
      | idle => simp [assignStep, hpc] at hassign
      | registerCb c cb period =>
          simp only [assignStep, hpc, Option.some.injEq] at hassign
          rw [hpc] at hmain
          subst hassign
          exact hmain.2
      | registerTicks c period | deregisterCb c | deregisterTicks c =>
          simp only [assignStep, hpc, Option.some.injEq] at hassign
          subst hassign
          trivial
  | isr _ hsame => rwa [hsame]
  | callback _ hsame => rwa [hsame]

/-- A callback leaves every good slot good. -/
theorem slotOk_callback {s s₁ : Timetick} {act : TimetickAct} (hreg : act.Registers)
    (h : (∃ cb ticks, act = .callbackRegister cb ticks ∧
          s₁.client = timetickRegister s.client cb ticks) ∨
        ∃ cb, act = .callbackDeregister cb ∧ s₁.client = timetickDeregister s.client cb)
    {i : ClientPtr} (hi : SlotOk s.client i) : SlotOk s₁.client i := by
  rcases h with ⟨cb, period, rfl, hclient⟩ | ⟨cb, rfl, hclient⟩
  · rw [hclient]
    exact hi.register cb hreg.2
  · rw [hclient]
    exact hi.deregister cb

/-! ### When the table stays fit for the modulo -/

/-- The iteration does not divide by zero. -/
def DividesOk (s : Timetick) (act : TimetickAct) : Prop :=
  act = .loop → ∀ i : ClientPtr, s.isr = some (.loop i) → SlotOk s.client i
deriving Decidable

/-- After the step every registered client has a period other than 0, and the step does not divide
    by zero. -/
def SchedulerLaw (s : Timetick) (act : TimetickAct) : Prop :=
  After timetickStep Sane s act ∧ DividesOk s act

/-- A registration does not store its callback beside a period of 0, and a deregistration does not
    clear the period of a client that has been registered since it began. -/
def SchedulerOk (s : Timetick) (act : TimetickAct) : Prop :=
  act = .assign → s.isr = none →
    match s.main with
    | .registerCb c _ _ => (s.client c).ticks ≠ 0
    | .deregisterTicks c => (s.client c).cb = none
    | _ => True

/-- No registration stores its callback. -/
def StoresNone (s : Timetick) (act : TimetickAct) : Prop :=
  act = .assign → s.isr = none → ∀ c cb ticks, s.main ≠ .registerCb c cb ticks

/-- Main stands between the two assignments of an operation. -/
def MainPc.inside : MainPc → Bool
  | .registerTicks _ _ => true
  | .deregisterTicks _ => true
  | _ => false

/-- No interrupt between the two assignments of an operation. -/
def OutsideOnly (s : Timetick) (act : TimetickAct) : Prop :=
  act = .interrupt → s.main.inside = false
deriving Decidable

section Scheduler

variable {s s₁ : Timetick} {act : TimetickAct} {o : List TimetickObs}

theorem Sane.divides (h : Sane s) (act : TimetickAct) : DividesOk s act :=
  fun _ i _ => h i

/-- The assignments main may make with the table fit before and after. -/
theorem sane_assign_iff (hsane : Sane s) (hmain : MainOk s.main)
    (hassign : assignStep s = some s₁) :
    Sane s₁ ↔
      match s.main with
      | .registerCb c _ _ => (s.client c).ticks ≠ 0
      | .deregisterTicks c => (s.client c).cb = none
      | _ => True := by
  cases hpc : s.main with
  | idle => simp [assignStep, hpc] at hassign
  | registerCb c cb period =>
      rw [hpc] at hmain
      simp only [assignStep, hpc, Option.some.injEq] at hassign
      subst hassign
      constructor
      · intro h
        simpa [SlotOk, hmain.1] using h c
      · intro hticks i
        by_cases hi : i = c
        · subst hi
          simp [SlotOk, hticks]
        · exact (slotOk_setCb_of_ne hi cb).mpr (hsane i)
  | registerTicks c period =>
      rw [hpc] at hmain
      simp only [assignStep, hpc, Option.some.injEq] at hassign
      subst hassign
      exact iff_of_true (fun i => .setTicks hmain fun _ => hsane i) trivial
  | deregisterCb c =>
      simp only [assignStep, hpc, Option.some.injEq] at hassign
      subst hassign
      exact iff_of_true (fun i => (hsane i).setCb_none) trivial
  | deregisterTicks c =>
      simp only [assignStep, hpc, Option.some.injEq] at hassign
      subst hassign
      constructor
      · intro h
        simpa [SlotOk] using h c
      · intro hfree i
        exact (hsane i).clearTicks hfree

/-- The other steps keep the table fit. -/
theorem TableStep.sane (h : TableStep s act s₁) (hreg : act.Registers) (hsane : Sane s)
    (hact : act ≠ .assign) : Sane s₁ := by
  intro i
  cases h with
  | call _ _ hclient =>
      rw [hclient]
      exact hsane i
  | assign hassign => exact absurd hassign hact
  | isr hclient =>
      rw [hclient]
      exact hsane i
  | callback _ _ hcallback => exact slotOk_callback hreg hcallback (hsane i)

theorem schedulerLaw_iff (hsane : Sane s) (hmain : MainOk s.main) (hreg : act.Registers) :
    SchedulerLaw s act ↔ SchedulerOk s act := by
  have hdivides := hsane.divides act
  constructor
  · rintro ⟨hafter, -⟩ rfl hisr
    cases hassign : assignStep s with
    | none =>
        have hpc : s.main = .idle := by
          unfold assignStep at hassign
          split at hassign
          · assumption
          all_goals cases hassign
        simp [hpc]
    | some s₁ =>
        have hs₁ : Sane s₁ := hafter s₁ [] (by simp [timetickStep, hisr, hassign])
        exact (sane_assign_iff hsane hmain hassign).mp hs₁
  · intro hok
    refine ⟨fun s₁ o₁ hstep => ?_, hdivides⟩
    by_cases hact : act = .assign
    · subst hact
      obtain ⟨hisr, hassign⟩ := assign_inv hstep
      exact (sane_assign_iff hsane hmain hassign).mpr (hok rfl hisr)
    · exact (timetickStep_table hstep).sane hreg hsane hact

/-! ### Tables only main changes -/

/-- Main changes the table alone and has stored no callback: a client that is not registered has
    period 0, unless main is about to clear it. -/
structure QuietInv (s : Timetick) : Prop where
  sane : Sane s
  main : MainOk s.main
  free : ∀ i, (s.client i).cb = none → (s.client i).ticks = 0 ∨ s.main = .deregisterTicks i
  found : ∀ c cb ticks, s.main = .registerCb c cb ticks → (s.client c).cb = none
  cleared : ∀ c, s.main = .deregisterTicks c → (s.client c).cb = none
  unstored : ∀ c ticks, s.main ≠ .registerTicks c ticks

namespace QuietInv

theorem init : QuietInv timetickInit where
  sane := by decide
  main := trivial
  free _ _ := .inl rfl
  found _ _ _ h := by cases h
  cleared _ h := by cases h
  unstored _ _ h := by cases h

/-- A free client that main is not about to clear has period 0. -/
theorem ticks_free (h : QuietInv s) {i : ClientPtr} (hfree : (s.client i).cb = none)
    (hpc : s.main ≠ .deregisterTicks i) : (s.client i).ticks = 0 :=
  (h.free i hfree).resolve_right hpc

/-- Storing a callback is the one thing that can go wrong. -/
theorem ok_iff (h : QuietInv s) : SchedulerOk s act ↔ StoresNone s act := by
  constructor
  · intro hok hact hisr c cb period hpc
    have hticks := hok hact hisr
    simp only [hpc] at hticks
    exact hticks (h.ticks_free (h.found c cb period hpc) (by simp [hpc]))
  · intro hnone hact hisr
    have hstored := hnone hact hisr
    split
    · rename_i c cb period hpc
      exact absurd hpc (hstored c cb period)
    · rename_i c hpc
      exact h.cleared c hpc
    · trivial

theorem step (h : QuietInv s) (hreg : act.Registers) (hfrom : act.FromMain)
    (hnone : StoresNone s act) (hstep : timetickStep s act = some (s₁, o)) : QuietInv s₁ := by
  have htable := timetickStep_table hstep
  have hlaw := (schedulerLaw_iff h.sane h.main hreg).mpr (h.ok_iff.mpr hnone)
  have hsane : Sane s₁ := hlaw.1 s₁ o hstep
  have hmain : MainOk s₁.main := htable.mainOk hreg h.main
  cases htable with
  | call hisr hidle hclient hcall =>
      have hzero : ∀ i, (s₁.client i).cb = none →
          (s₁.client i).ticks = 0 ∨ s₁.main = .deregisterTicks i := by
        intro i hi
        rw [hclient] at hi ⊢
        exact .inl (h.ticks_free hi (by simp [hidle]))
      rcases hcall with hpc | ⟨c, cb, period, -, hfree, hpc⟩ | ⟨c, hpc⟩
      · exact ⟨hsane, hmain, hzero, by simp [hpc], by simp [hpc], by simp [hpc]⟩
      · refine ⟨hsane, hmain, hzero, ?_, by simp [hpc], by simp [hpc]⟩
        intro c' cb' period' hpc'
        rw [hpc] at hpc'
        cases hpc'
        rw [hclient]
        exact hfree
      · exact ⟨hsane, hmain, hzero, by simp [hpc], by simp [hpc], by simp [hpc]⟩
  | assign hact hisr _ hassign =>
      cases hpc : s.main with
      | idle => simp [assignStep, hpc] at hassign
      | registerCb c cb period => exact absurd hpc (hnone hact hisr c cb period)
      | registerTicks c period => exact absurd hpc (h.unstored c period)
      | deregisterCb c =>
          simp only [assignStep, hpc, Option.some.injEq] at hassign
          subst hassign
          refine ⟨hsane, hmain, ?_, by simp, ?_, by simp⟩
          · intro i hi
            by_cases hic : i = c
            · exact .inr (by rw [hic])
            · simp only [setCb_of_ne hic] at hi ⊢
              exact .inl (h.ticks_free hi (by simp [hpc]))
          · intro c' hc'
            cases hc'
            simp
      | deregisterTicks c =>
          simp only [assignStep, hpc, Option.some.injEq] at hassign
          subst hassign
          refine ⟨hsane, hmain, ?_, by simp, by simp, by simp⟩
          intro i hi
          by_cases hic : i = c
          · subst hic
            simp
          · simp only [setTicks_of_ne hic] at hi ⊢
            exact .inl (h.ticks_free hi (by simp [hpc, Ne.symm hic]))
  | isr hclient hsame =>
      refine ⟨hsane, hmain, ?_, ?_, ?_, ?_⟩
      · simpa only [hclient, hsame] using h.free
      · simpa only [hclient, hsame] using h.found
      · simpa only [hclient, hsame] using h.cleared
      · simpa only [hsame] using h.unstored
  | callback _ _ hcallback =>
      rcases hcallback with ⟨_, _, rfl, -⟩ | ⟨_, rfl, -⟩
      · exact hfrom.elim
      · exact hfrom.elim

end QuietInv

/-! ### Interrupts outside of main's operations -/

/-- The table is fit but for the client whose period main is about to store, and no interrupt is
    served while main stands between two assignments. -/
structure OutsideInv (s : Timetick) : Prop where
  slots : ∀ i, SlotOk s.client i ∨ ∃ ticks, s.main = .registerTicks i ticks
  main : MainOk s.main
  cleared : ∀ c, s.main = .deregisterTicks c → (s.client c).cb = none
  outside : s.isr ≠ none → s.main.inside = false

namespace OutsideInv

theorem init : OutsideInv timetickInit where
  slots i := .inl fun h => absurd rfl h
  main := trivial
  cleared _ h := by cases h
  outside h := absurd rfl h

/-- During an interrupt the whole table is fit. -/
theorem sane (h : OutsideInv s) (hpc : s.main.inside = false) : Sane s := by
  intro i
  rcases h.slots i with hi | ⟨period, hmain⟩
  · exact hi
  · rw [hmain] at hpc
    cases hpc

theorem divides (h : OutsideInv s) (act : TimetickAct) : DividesOk s act := by
  intro hact i hisr
  exact (h.sane (h.outside (by simp [hisr]))).divides act hact i hisr

theorem step (h : OutsideInv s) (hreg : act.Registers) (hok : OutsideOnly s act)
    (hstep : timetickStep s act = some (s₁, o)) : OutsideInv s₁ := by
  have htable := timetickStep_table hstep
  have hmain : MainOk s₁.main := htable.mainOk hreg h.main
  cases htable with
  | call hisr hidle hclient hcall =>
      have hpc : s.main.inside = false := by
        rw [hidle]
        rfl
      have hnot : s₁.main.inside = false ∧ ∀ c, s₁.main ≠ .deregisterTicks c := by
        rcases hcall with h₁ | ⟨c, cb, period, -, -, h₁⟩ | ⟨c, h₁⟩ <;>
          simp [h₁, MainPc.inside]
      refine ⟨fun i => .inl ?_, hmain, fun c hc => absurd hc (hnot.2 c), fun _ => hnot.1⟩
      rw [hclient]
      exact h.sane hpc i
  | assign _ _ hisr₁ hassign =>
      have houtside : s₁.isr ≠ none → s₁.main.inside = false := fun hne => absurd hisr₁ hne
      cases hpc : s.main with
      | idle => simp [assignStep, hpc] at hassign
      | registerCb c cb period =>
          have hsane : Sane s := h.sane (by simp [hpc, MainPc.inside])
          simp only [assignStep, hpc, Option.some.injEq] at hassign
          subst hassign
          refine ⟨fun i => ?_, hmain, by simp, houtside⟩
          by_cases hic : i = c
          · exact .inr ⟨period, by rw [hic]⟩
          · exact .inl ((slotOk_setCb_of_ne hic cb).mpr (hsane i))
      | registerTicks c period =>
          have hperiod := h.main
          rw [hpc] at hperiod
          simp only [assignStep, hpc, Option.some.injEq] at hassign
          subst hassign
          refine ⟨fun i => .inl (.setTicks hperiod fun hic => ?_), hmain, by simp, houtside⟩
          rcases h.slots i with hi | ⟨period', hmain'⟩
          · exact hi
          · rw [hpc] at hmain'
            cases hmain'
            exact absurd rfl hic
      | deregisterCb c =>
          have hsane : Sane s := h.sane (by simp [hpc, MainPc.inside])
          simp only [assignStep, hpc, Option.some.injEq] at hassign
          subst hassign
          refine ⟨fun i => .inl (hsane i).setCb_none, hmain, fun c' hc' => ?_, houtside⟩
          cases hc'
          simp
      | deregisterTicks c =>
          simp only [assignStep, hpc, Option.some.injEq] at hassign
          subst hassign
          refine ⟨fun i => .inl ?_, hmain, by simp, houtside⟩
          rcases h.slots i with hi | ⟨period, hmain'⟩
          · exact hi.clearTicks (h.cleared c hpc)
          · rw [hpc] at hmain'
            cases hmain'
  | isr hclient hsame hfrom =>
      refine ⟨?_, hmain, ?_, fun _ => ?_⟩
      · simpa only [hclient, hsame] using h.slots
      · simpa only [hclient, hsame] using h.cleared
      · rw [hsame]
        rcases hfrom with hact | hisr
        · exact hok hact
        · exact h.outside hisr
  | callback hisr hsame hcallback =>
      have hout := h.outside hisr
      refine ⟨fun i => .inl (slotOk_callback hreg hcallback (h.sane hout i)), hmain, ?_, ?_⟩
      · intro c hc
        rw [hsame] at hc
        rw [hc] at hout
        cases hout
      · rw [hsame]
        exact fun _ => hout

end OutsideInv

end Scheduler

/-- For registrations with a callback and a period other than 0: every state reached has a period
    for each registered client, and no interrupt divides by zero, exactly as long as no registration
    stores its callback beside the period 0 of a free client and no deregistration clears the period
    of a client registered anew. If no callback changes the table, that means: exactly as long as no
    registration stores its callback at all. And an interrupt that never comes between the two
    assignments of an operation never divides by zero. -/
theorem scheduler_sane_iff {acts : List TimetickAct} (hreg : ∀ act ∈ acts, act.Registers) :
    (Guarded timetickStep SchedulerLaw timetickInit acts ↔
      Guarded timetickStep SchedulerOk timetickInit acts) ∧
    ((∀ act ∈ acts, act.FromMain) →
      (Guarded timetickStep SchedulerLaw timetickInit acts ↔
        Guarded timetickStep StoresNone timetickInit acts)) ∧
    (Guarded timetickStep OutsideOnly timetickInit acts →
      Guarded timetickStep DividesOk timetickInit acts) := by
  have hsane : Sane timetickInit := by decide
  refine ⟨?_, fun hfrom => ?_, ?_⟩
  · have hiff : ∀ s act, Sane s ∧ MainOk s.main → act.Registers →
        (SchedulerLaw s act ↔ SchedulerOk s act) :=
      fun s act h hact => schedulerLaw_iff h.1 h.2 hact
    have hkeep : ∀ s act s₁ o₁, Sane s ∧ MainOk s.main → act.Registers → SchedulerOk s act →
        timetickStep s act = some (s₁, o₁) → Sane s₁ ∧ MainOk s₁.main :=
      fun s act s₁ o₁ h hact hok hstep =>
        ⟨((hiff s act h hact).mpr hok).1 s₁ o₁ hstep,
          (timetickStep_table hstep).mainOk hact h.2⟩
    exact guarded_iff_of_mem _ hiff hkeep ⟨hsane, trivial⟩ hreg
  · have hboth : ∀ act ∈ acts, act.Registers ∧ act.FromMain :=
      fun act hact => ⟨hreg act hact, hfrom act hact⟩
    exact guarded_iff_of_mem (fun act => act.Registers ∧ act.FromMain)
      (fun s act h hact => (schedulerLaw_iff h.sane h.main hact.1).trans h.ok_iff)
      (fun s act s₁ o₁ h hact hok hstep => h.step hact.1 hact.2 hok hstep) QuietInv.init hboth
  · exact Guarded.imp_of_mem TimetickAct.Registers (fun s act h _ _ => h.divides act)
      (fun s act s₁ o₁ h hact hok hstep => h.step hact hok hstep) OutsideInv.init hreg

/-- The first registration of `ui_setup`, and an interrupt after it. -/
theorem scheduler_sane_iff_first_client :
    Guarded timetickStep DividesOk timetickInit
      [.register (some 9) 50, .assign, .assign, .interrupt, .loop, .ret, .loop, .loop] :=
  (scheduler_sane_iff (by decide)).2.2 (by decide)

/-- With the interrupt between the two assignments the first client has no period, and the loop
    divides by it. -/
theorem scheduler_sane_fails :
    ¬ Guarded timetickStep (After timetickStep Sane) timetickInit [.register (some 9) 50, .assign] ∧
    ¬ Guarded timetickStep DividesOk timetickInit
      [.register (some 9) 50, .assign, .interrupt, .loop] := by
  decide

end RfPirate
