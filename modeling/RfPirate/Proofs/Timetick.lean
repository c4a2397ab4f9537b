/-
Module: RfPirate.Proofs.Timetick
Layer: Proofs
Purpose: What the timer interrupt does for a client over a run. A client that stays registered is
  called at the counts that are multiples of its period, so a wrap of the count breaks the period
  unless it divides 65536.
Main exports: callTimes, PeriodInv, period_iff, Sane, interrupts_served
-/
import RfPirate.Core.Timetick
import RfPirate.Lib.Periodic

namespace RfPirate

open Lib Lib.Machine Lib.Periodic

/-! ### Calls and ticks of a run -/

/-- Interrupts a trace completes. -/
def ticks (o : List TimetickObs) : Nat := o.count .tick

/-- When client `j` is called, in interrupts, if `t` are completed before the trace. -/
def callTimesFrom (j : ClientPtr) : Nat → List TimetickObs → List Nat
  | _, [] => []
  | t, .tick :: o => callTimesFrom j (t + 1) o
  | t, .called i _ _ :: o => if i = j then t :: callTimesFrom j t o else callTimesFrom j t o

/-- When client `j` is called, in interrupts completed since the start of the trace. -/
def callTimes (j : ClientPtr) (o : List TimetickObs) : List Nat := callTimesFrom j 0 o

theorem callTimesFrom_append (j : ClientPtr) (o o' : List TimetickObs) (t : Nat) :
    callTimesFrom j t (o ++ o') = callTimesFrom j t o ++ callTimesFrom j (t + ticks o) o' := by
  induction o generalizing t with
  | nil => rfl
  | cons x o ih =>
      cases x with
      | tick =>
          have hticks : ticks (.tick :: o) = ticks o + 1 := List.count_cons_self
          simp only [List.cons_append, callTimesFrom, ih, hticks]
          congr 2
          omega
      | called i cb count =>
          have hticks : ticks (.called i cb count :: o) = ticks o :=
            List.count_cons_of_ne (by simp)
          simp only [List.cons_append, callTimesFrom, ih, hticks]
          split <;> rfl

section Trace

variable {j : ClientPtr} (o : List TimetickObs)

theorem ticks_tick : ticks (o ++ [.tick]) = ticks o + 1 := by simp [ticks]

theorem ticks_called (i : ClientPtr) (cb : TimetickCb) (count : UInt16) :
    ticks (o ++ [.called i cb count]) = ticks o := by simp [ticks]

theorem callTimes_tick : callTimes j (o ++ [.tick]) = callTimes j o := by
  simp [callTimes, callTimesFrom_append, callTimesFrom]

theorem callTimes_called (i : ClientPtr) (cb : TimetickCb) (count : UInt16) :
    callTimes j (o ++ [.called i cb count]) =
      callTimes j o ++ if i = j then [ticks o] else [] := by
  simp [callTimes, callTimesFrom_append, callTimesFrom]

end Trace

/-! ### A client that stays registered -/

/-- Client `j` is registered with a callback and a period. -/
def Stays (j : ClientPtr) (cb : TimetickCb) (p : UInt16) (s : Timetick) : Prop :=
  s.client j = ⟨p, some cb⟩

instance (j : ClientPtr) (cb : TimetickCb) (p : UInt16) : DecidablePred (Stays j cb p) :=
  fun s => inferInstanceAs (Decidable (s.client j = ⟨p, some cb⟩))

/-- Turns client `j` has had in the interrupt that is being served: 0 or 1. -/
def turns (j : ClientPtr) : Option IsrPc → Nat
  | none => 0
  | some (.loop i) => if j.val < i then 1 else 0
  | some (.callback i) => if j.val ≤ i then 1 else 0

theorem turns_loop_succ (j : ClientPtr) (i : Nat) :
    turns j (some (.loop (i + 1))) = turns j (some (.callback i)) := by
  have hiff : j.val < i + 1 ↔ j.val ≤ i := Nat.lt_succ_iff
  simp only [turns, hiff]

theorem turns_callback_of_ne {j : ClientPtr} {i : Nat} (hne : j.val ≠ i) :
    turns j (some (.callback i)) = turns j (some (.loop i)) := by
  have hiff : j.val ≤ i ↔ j.val < i := by omega
  simp [turns, hiff]

/-- The count follows the interrupts since `s`, and client `j` was called in those of them at which
    the count was a multiple of its period. -/
structure PeriodInv (s : Timetick) (j : ClientPtr) (cb : TimetickCb) (p : UInt16) (s' : Timetick)
    (o : List TimetickObs) : Prop where
  stays : Stays j cb p s'
  count : s'.count.toNat = (s.count.toNat + ticks o) % 65536
  calls : callTimes j o =
    dueTimes 65536 p.toNat s.count.toNat (ticks o + turns j s'.isr)

namespace PeriodInv

variable {s s' s₁ : Timetick} {j : ClientPtr} {cb : TimetickCb} {p : UInt16}
  {o o₁ : List TimetickObs}

/-- A step that observes nothing and leaves the count alone. -/
theorem of_silent (h : PeriodInv s j cb p s' o) (hstays : Stays j cb p s₁)
    (hcount : s₁.count = s'.count) (hturns : turns j s₁.isr = turns j s'.isr) :
    PeriodInv s j cb p s₁ (o ++ []) := by
  rw [List.append_nil]
  exact ⟨hstays, by rw [hcount, h.count], by rw [hturns, h.calls]⟩

/-- The due test of client `j`. -/
theorem due_iff (h : PeriodInv s j cb p s' o) :
    s'.count % p = 0 ↔ (s.count.toNat + ticks o) % 65536 % p.toNat = 0 := by
  rw [← h.count, ← UInt16.toNat_inj, UInt16.toNat_mod]
  rfl

/-- An iteration of the loop, or the increment after it. -/
theorem isrStep {i : Nat} (h : PeriodInv s j cb p s' o) (hp : p ≠ 0)
    (hisr : s'.isr = some (.loop i)) (hstays : Stays j cb p s₁)
    (hstep : isrStep s' i = some (s₁, o₁)) : PeriodInv s j cb p s₁ (o ++ o₁) := by
  have hcalls := h.calls
  rw [hisr] at hcalls
  unfold RfPirate.isrStep at hstep
  split at hstep
  · rename_i hi
    by_cases hij : j.val = i
    · -- the turn of client `j`
      have hptr : (⟨i, hi⟩ : ClientPtr) = j := Fin.ext hij.symm
      have hbefore : turns j (some (.loop i)) = 0 := by simp [turns, hij]
      have hafter : turns j (some (.callback i)) = 1 := by simp [turns, hij]
      have hclient : s'.client j = ⟨p, some cb⟩ := h.stays
      rw [hbefore, Nat.add_zero] at hcalls
      simp only [hptr, hclient, hp, if_false] at hstep
      split at hstep <;> rename_i hdue <;> cases hstep
      · refine ⟨hstays, by rw [ticks_called]; exact h.count, ?_⟩
        rw [callTimes_called, ticks_called, if_pos rfl, hcalls, hafter, dueTimes_succ,
          if_pos (h.due_iff.mp hdue)]
      · refine ⟨hstays, by rw [List.append_nil]; exact h.count, ?_⟩
        rw [List.append_nil, turns_loop_succ, hafter, dueTimes_succ,
          if_neg (mt h.due_iff.mpr hdue), List.append_nil, hcalls]
    · have hsame := turns_callback_of_ne hij
      have hnext := (turns_loop_succ j i).trans hsame
      have hptr : (⟨i, hi⟩ : ClientPtr) ≠ j := fun heq => hij (by rw [← heq])
      simp only at hstep
      split at hstep
      · cases hstep
        exact h.of_silent hstays rfl (by rw [hisr, hnext])
      · split at hstep
        · cases hstep
        · split at hstep <;> cases hstep
          · refine ⟨hstays, by rw [ticks_called]; exact h.count, ?_⟩
            rw [callTimes_called, ticks_called, if_neg hptr, List.append_nil, hcalls, hsame]
          · exact h.of_silent hstays rfl (by rw [hisr, hnext])
  · rename_i hi
    cases hstep
    have hlast : turns j (some (.loop i)) = 1 := by
      have hlt := j.isLt
      simp only [turns]
      rw [if_pos (by omega)]
    refine ⟨hstays, ?_, ?_⟩
    · rw [ticks_tick]
      have hone : (1 : UInt16).toNat = 1 := rfl
      simp only [UInt16.toNat_add, h.count, hone]
      omega
    · rw [callTimes_tick, ticks_tick, hcalls, hlast]
      rfl

theorem step (h : PeriodInv s j cb p s' o) (hp : p ≠ 0) {act : TimetickAct}
    (hstays : After timetickStep (Stays j cb p) s' act)
    (hstep : timetickStep s' act = some (s₁, o₁)) : PeriodInv s j cb p s₁ (o ++ o₁) := by
  have hs₁ : Stays j cb p s₁ := hstays s₁ o₁ hstep
  cases act with
  | register cb' period =>
      simp only [timetickStep] at hstep
      split at hstep <;> cases hstep
      unfold registerCall at hs₁ ⊢
      split at hs₁ <;> exact h.of_silent hs₁ rfl rfl
  | deregister cb' =>
      simp only [timetickStep] at hstep
      split at hstep <;> cases hstep
      unfold deregisterCall at hs₁ ⊢
      split at hs₁ <;> exact h.of_silent hs₁ rfl rfl
  | assign =>
      simp only [timetickStep] at hstep
      split at hstep
      · obtain ⟨_, hassign, heq⟩ := Option.map_eq_some_iff.mp hstep
        cases heq
        have hrest : s₁.count = s'.count ∧ s₁.isr = s'.isr := by
          unfold assignStep at hassign
          split at hassign <;> cases hassign <;> exact ⟨rfl, rfl⟩
        exact h.of_silent hs₁ hrest.1 (by rw [hrest.2])
      · cases hstep
  | interrupt =>
      simp only [timetickStep] at hstep
      split at hstep <;> cases hstep
      rename_i hisr
      exact h.of_silent hs₁ rfl (by simp [turns, hisr])
  | loop =>
      simp only [timetickStep] at hstep
      split at hstep
      · rename_i i hisr
        exact h.isrStep hp hisr hs₁ hstep
      · cases hstep
  | callbackRegister cb' period =>
      simp only [timetickStep] at hstep
      split at hstep <;> cases hstep
      exact h.of_silent hs₁ rfl rfl
  | callbackDeregister cb' =>
      simp only [timetickStep] at hstep
      split at hstep <;> cases hstep
      exact h.of_silent hs₁ rfl rfl
  | ret =>
      simp only [timetickStep] at hstep
      split at hstep <;> cases hstep
      rename_i i hisr
      exact h.of_silent hs₁ rfl (by rw [hisr, turns_loop_succ])

end PeriodInv

/-- While client `j` stays registered with the period `p`, from one call of it to the next there are
    `p` interrupts, for every two calls in the run, exactly when the period divides 65536, or the
    count does not wrap in the run, or it wraps once and the client is not due before that. -/
theorem period_iff {s s' : Timetick} {j : ClientPtr} {cb : TimetickCb} {p : UInt16}
    {acts : List TimetickAct} {o : List TimetickObs} (hp : p ≠ 0) (hclient : Stays j cb p s)
    (hbegin : s.isr = none)
    (hstays : Guarded timetickStep (After timetickStep (Stays j cb p)) s acts)
    (hrun : run timetickStep s acts = some (s', o)) (hend : s'.isr = none) :
    (callTimes j o).IsChain (fun a b => b = a + p.toNat) ↔
      p.toNat ∣ 65536 ∨ s.count.toNat + ticks o ≤ 65536 ∨
        (65536 - 65536 % p.toNat < s.count.toNat ∧ s.count.toNat + ticks o ≤ 2 * 65536) := by
  have hinit : PeriodInv s j cb p s [] := by
    refine ⟨hclient, ?_, ?_⟩
    · exact (Nat.mod_eq_of_lt s.count.toNat_lt).symm
    · rw [hbegin]
      rfl
  have hinv : PeriodInv s j cb p s' o :=
    run_guarded_induction _ (fun _ _ _ _ _ h hok hstep => h.step hp hok hstep) hinit hstays hrun
  have hcalls := hinv.calls
  rw [hend] at hcalls
  rw [hcalls]
  have hpos : 0 < p.toNat := Nat.pos_of_ne_zero fun h0 => hp (UInt16.toNat_inj.mp h0)
  exact dueTimes_isChain_iff hpos p.toNat_lt.le s.count.toNat_lt

/-- The slot that is free first. -/
def firstClient : ClientPtr := ⟨0, Nat.succ_pos 4⟩

/-- Period 2 divides 65536: one wrap of the count, and calls two interrupts apart. -/
theorem period_iff_two :
    let s : Timetick :=
      { count := 65535, client := timetickRegister timetickInit.client (some 9) 2, main := .idle,
        isr := none }
    let skip : List TimetickAct := .interrupt :: .replicate 6 .loop
    let call : List TimetickAct := [.interrupt, .loop, .ret] ++ .replicate 5 .loop
    ∃ s' o, run timetickStep s (skip ++ call ++ skip ++ call) = some (s', o) ∧
      (callTimes firstClient o).IsChain (fun a b => b = a + 2) := by
  intro s skip call
  have hsome : (run timetickStep s (skip ++ call ++ skip ++ call)).map (fun r => r.1.isr) =
      some none := by decide
  obtain ⟨⟨s', o⟩, hrun, hend⟩ := Option.map_eq_some_iff.mp hsome
  have hclient : Stays firstClient 9 2 s := by decide
  have hstays : Guarded timetickStep (After timetickStep (Stays firstClient 9 2)) s
      (skip ++ call ++ skip ++ call) := by decide
  exact ⟨s', o, hrun,
    (period_iff (by decide) hclient rfl hstays hrun hend).mpr (.inl (by decide))⟩

/-! ### Interrupts can be served -/

/-- If client `i` is registered, it has a period the interrupt can divide by. -/
def SlotOk (client : ClientTable) (i : ClientPtr) : Prop :=
  (client i).cb ≠ none → (client i).ticks ≠ 0
deriving Decidable

/-- Every registered client has a period the interrupt can divide by. -/
def Sane (s : Timetick) : Prop := ∀ i, SlotOk s.client i
deriving Decidable

/-- The loop from `i` on. -/
theorem loop_served {s : Timetick} (hsane : Sane s) (n : Nat) {i : Nat} (hi : i + n = clientCnt) :
    Reaches timetickStep { s with isr := some (.loop i) }
      { s with count := s.count + 1, isr := none } := by
  induction n generalizing i with
  | zero =>
      refine .head .loop ?_ (.refl _)
      simp [timetickStep, isrStep, show ¬ i < clientCnt by omega]
  | succ n ih =>
      have hlt : i < clientCnt := by omega
      have hrest := ih (i := i + 1) (by omega)
      cases hcb : (s.client ⟨i, hlt⟩).cb with
      | none =>
          refine .head .loop ?_ hrest
          simp [timetickStep, isrStep, hlt, hcb]
      | some cb =>
          have hticks : (s.client ⟨i, hlt⟩).ticks ≠ 0 := hsane _ (by simp [hcb])
          by_cases hdue : s.count % (s.client ⟨i, hlt⟩).ticks = 0
          · have hret : Reaches timetickStep { s with isr := some (.callback i) }
                { s with count := s.count + 1, isr := none } := .head .ret rfl hrest
            refine .head .loop ?_ hret
            simp [timetickStep, isrStep, hlt, hcb, hticks, hdue]
          · refine .head .loop ?_ hrest
            simp [timetickStep, isrStep, hlt, hcb, hticks, hdue]

/-- With callbacks that leave the table alone, any number of interrupts. -/
theorem interrupts_served {s : Timetick} (hsane : Sane s) (hisr : s.isr = none) (n : Nat) :
    Reaches timetickStep s { s with count := s.count + UInt16.ofNat n } := by
  induction n with
  | zero =>
      have hsame : { s with count := s.count + UInt16.ofNat 0 } = s := by simp
      rw [hsame]
      exact .refl s
  | succ n ih =>
      have hloop := loop_served (s := { s with count := s.count + UInt16.ofNat n }) hsane clientCnt
        (Nat.zero_add _)
      have hinterrupt : Reaches timetickStep { s with count := s.count + UInt16.ofNat n }
          { s with count := s.count + UInt16.ofNat n + 1, isr := none } :=
        .head .interrupt (by simp [timetickStep, hisr]) hloop
      rw [UInt16.ofNat_add, ← UInt16.add_assoc]
      simpa [hisr] using ih.trans hinterrupt

/-- The keypad's period 7 breaks at the first wrap: called at the counts 65534 and 0, the client
    sees 2 interrupts between the two calls. -/
theorem period_fails :
    ∃ s acts s' o, Reaches timetickStep timetickInit s ∧ Stays firstClient 9 7 s ∧ s.isr = none ∧
      Guarded timetickStep (After timetickStep (Stays firstClient 9 7)) s acts ∧
      run timetickStep s acts = some (s', o) ∧ s'.isr = none ∧
      ¬ (callTimes firstClient o).IsChain (fun a b => b = a + 7) := by
  let s₀ : Timetick :=
    { timetickInit with client := timetickRegister timetickInit.client (some 9) 7 }
  have hregister : Reaches timetickStep timetickInit s₀ := by
    refine ⟨[.register (some 9) 7, .assign, .assign], [], ?_⟩
    rfl
  have hcount : s₀.count + UInt16.ofNat 65534 = 65534 := by decide
  have hwait : Reaches timetickStep s₀ { s₀ with count := 65534 } := by
    rw [← hcount]
    exact interrupts_served (by decide) rfl 65534
  let call : List TimetickAct := [.interrupt, .loop, .ret] ++ .replicate 5 .loop
  let skip : List TimetickAct := .interrupt :: .replicate 6 .loop
  have hsome : (run timetickStep { s₀ with count := 65534 } (call ++ skip ++ call)).map
      (fun r => (r.1.isr, callTimes firstClient r.2)) = some (none, [0, 2]) := by decide
  obtain ⟨⟨s', o⟩, hrun, hend⟩ := Option.map_eq_some_iff.mp hsome
  obtain ⟨hisr, hcalls⟩ := Prod.mk.inj hend
  refine ⟨_, _, s', o, hregister.trans hwait, by decide, rfl, by decide, hrun, hisr, ?_⟩
  rw [hcalls]
  decide

end RfPirate
