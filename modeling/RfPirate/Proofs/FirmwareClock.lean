/-
Module: RfPirate.Proofs.FirmwareClock
Layer: Proofs
Purpose: The clock of the firmware. Its timer interrupt simulates the machine of `timetick.cpp`, so
  that the theory of periods holds of the clients that the firmware registers. Keypad and battery
  voltage share the converter: the two clients that start it are due together whenever the count is
  a multiple of 42000, and exactly then a result is at stake.
Main exports: Firmware.timetick, timer_simulates, firmware_clients, Mixed, Prompt, SampleLaw,
  firmware_samples
-/
import RfPirate.Lib.Simulation
import RfPirate.Proofs.AdcChannel
import RfPirate.Proofs.Firmware
import RfPirate.Proofs.Scheduler

namespace RfPirate

open Lib Lib.Machine Lib.Periodic

/-! ### The interrupt and the machine of the clients -/

/-- The state of `timetick.cpp` between two interrupts, when main is in none of its functions. -/
def Firmware.timetick (s : Firmware) : Timetick :=
  { count := s.count, client := s.client, main := .idle, isr := none }

/-- What an observer of the clients sees. -/
def FirmwareObs.timer? : FirmwareObs → Option TimetickObs
  | .timer o => some o
  | _ => none

/-- The part of a trace that is about the clients. -/
def clientObs (obs : List FirmwareObs) : List TimetickObs := obs.filterMap FirmwareObs.timer?

/-- The labels of an interrupt whose callbacks leave the table alone. -/
def TimetickAct.OfInterrupt : TimetickAct → Prop
  | .interrupt => True
  | .loop => True
  | .ret => True
  | _ => False

section Clock

variable {sys : UInt16} {tbl : CmdTable} {o : PostInc} {bank : List UInt8} {s s' : Firmware}
  {act : FirmwareAct} {obs : List FirmwareObs}

theorem clientObs_append {obs' : List FirmwareObs} :
    clientObs (obs ++ obs') = clientObs obs ++ clientObs obs' := List.filterMap_append

theorem clientObs_timer (x : TimetickObs) (obs : List FirmwareObs) :
    clientObs (.timer x :: obs) = x :: clientObs obs := rfl

/-- Observations of another kind. -/
theorem clientObs_map {α : Type} {f : α → FirmwareObs} (hf : ∀ a, (f a).timer? = none)
    (l : List α) : clientObs (l.map f) = [] := by
  rw [clientObs, List.filterMap_map]
  exact List.filterMap_eq_nil_iff.mpr fun a _ => hf a

/-- The functions of the clients do not touch the clock. -/
theorem clientCall_clock (o : PostInc) (bank : List UInt8) (cb : TimetickCb) (s : Firmware) :
    (clientCall o bank cb s).1.count = s.count ∧ (clientCall o bank cb s).1.client = s.client ∧
      clientObs (clientCall o bank cb s).2 = [] := by
  unfold clientCall
  split
  · exact ⟨rfl, rfl, rfl⟩
  split
  · exact ⟨rfl, rfl, clientObs_map (fun _ => rfl) _⟩
  split
  · exact ⟨rfl, rfl, rfl⟩
  split <;> exact ⟨rfl, rfl, rfl⟩

/-- The loop from client `i` on, step by step. -/
theorem clientLoop_run {n i : Nat} (hi : i + n = clientCnt) {r : Firmware × List FirmwareObs}
    (h : clientLoop o bank ((List.finRange clientCnt).drop i) s = some r) :
    r.1.count = s.count ∧ r.1.client = s.client ∧
      ∃ js, (∀ j ∈ js, TimetickAct.OfInterrupt j) ∧
        run timetickStep { s.timetick with isr := some (.loop i) } js =
          some ({ s.timetick with isr := some (.loop clientCnt) }, clientObs r.2) := by
  induction n generalizing s i r with
  | zero =>
      have hdrop : (List.finRange clientCnt).drop i = [] :=
        List.drop_eq_nil_of_le (by rw [List.length_finRange]; omega)
      rw [hdrop] at h
      cases h
      refine ⟨rfl, rfl, [], fun j hj => absurd hj List.not_mem_nil, ?_⟩
      rw [Nat.add_zero] at hi
      rw [hi]
      rfl
  | succ n ih =>
      have hlt : i < clientCnt := by omega
      have hdrop : (List.finRange clientCnt).drop i =
          ⟨i, hlt⟩ :: (List.finRange clientCnt).drop (i + 1) := by
        rw [List.drop_eq_getElem_cons (by rwa [List.length_finRange]), List.getElem_finRange]
        rfl
      have hloop : ∀ js, (∀ j ∈ js, TimetickAct.OfInterrupt j) →
          ∀ j ∈ TimetickAct.loop :: js, j.OfInterrupt := by
        intro js hjs j hj
        rcases List.mem_cons.mp hj with rfl | hj
        · trivial
        · exact hjs j hj
      rw [hdrop, clientLoop] at h
      split at h
      · rename_i hcb
        obtain ⟨hcount, hclient, js, hjs, hrun⟩ := ih (by omega) h
        refine ⟨hcount, hclient, .loop :: js, hloop js hjs, ?_⟩
        have hnext : timetickStep { s.timetick with isr := some (.loop i) } .loop =
            some ({ s.timetick with isr := some (.loop (i + 1)) }, []) := by
          simp [timetickStep, isrStep, Firmware.timetick, hlt, hcb]
        exact run_cons hnext hrun
      · rename_i cb hcb
        split at h
        · cases h
        · rename_i hticks
          split at h
          · rename_i hdue
            obtain ⟨r', hrest, rfl⟩ := Option.map_eq_some_iff.mp h
            obtain ⟨hcount, hclient, hquiet⟩ := clientCall_clock o bank cb s
            obtain ⟨hcount', hclient', js, hjs, hrun⟩ := ih (by omega) hrest
            refine ⟨hcount'.trans hcount, hclient'.trans hclient, .loop :: .ret :: js,
              hloop _ ?_, ?_⟩
            · intro j hj
              rcases List.mem_cons.mp hj with rfl | hj
              · trivial
              · exact hjs j hj
            · have hobs : clientObs (.timer (.called ⟨i, hlt⟩ cb s.count) ::
                  (clientCall o bank cb s).2 ++ r'.2) =
                  .called ⟨i, hlt⟩ cb s.count :: clientObs r'.2 := by
                rw [List.cons_append, clientObs_timer, clientObs_append, hquiet, List.nil_append]
              rw [hobs]
              simp only [Firmware.timetick, hcount, hclient] at hrun
              simp [run, timetickStep, isrStep, Firmware.timetick, hlt, hcb, hticks, hdue, hrun]
          · rename_i hdue
            obtain ⟨hcount, hclient, js, hjs, hrun⟩ := ih (by omega) h
            refine ⟨hcount, hclient, .loop :: js, hloop js hjs, ?_⟩
            have hnext : timetickStep { s.timetick with isr := some (.loop i) } .loop =
                some ({ s.timetick with isr := some (.loop (i + 1)) }, []) := by
              simp [timetickStep, isrStep, Firmware.timetick, hlt, hcb, hticks, hdue]
            exact run_cons hnext hrun

/-- The interrupt of the firmware is one of `timetick.cpp`. -/
theorem timer_run {r : Firmware × List FirmwareObs} (h : timerIsr o bank s = some r) :
    r.1.client = s.client ∧ ∃ js, (∀ j ∈ js, TimetickAct.OfInterrupt j) ∧
      run timetickStep s.timetick js = some (r.1.timetick, clientObs r.2) := by
  obtain ⟨r', hloop, rfl⟩ := Option.map_eq_some_iff.mp h
  obtain ⟨hcount, hclient, js, hjs, hrun⟩ := clientLoop_run (Nat.zero_add clientCnt) hloop
  refine ⟨hclient, .interrupt :: (js ++ [.loop]), ?_, ?_⟩
  · intro j hj
    rcases List.mem_cons.mp hj with rfl | hj
    · trivial
    · rcases List.mem_append.mp hj with hj | hj
      · exact hjs j hj
      · rw [List.mem_singleton.mp hj]
        trivial
  · have hfirst : timetickStep s.timetick .interrupt =
        some ({ s.timetick with isr := some (.loop 0) }, []) := rfl
    have hlast : run timetickStep { s.timetick with isr := some (.loop clientCnt) } [.loop] =
        some ({ s.timetick with count := s.count + 1 }, [.tick]) := by
      simp [run, timetickStep, isrStep, Firmware.timetick]
    have hall := run_append hrun hlast
    have hstate : Firmware.timetick { r'.1 with count := r'.1.count + 1 } =
        { s.timetick with count := s.count + 1 } := by
      simp only [Firmware.timetick, hcount, hclient]
    rw [hstate, clientObs_append, run, hfirst]
    simp only [hall, List.nil_append]
    rfl

/-- The machine of `timetick.cpp` stands where the firmware does, with the clients of `ui_setup`. -/
def SameClock (s : Firmware) (t : Timetick) : Prop := s.client = clients ∧ t = s.timetick

/-- Every other step leaves the clock alone. -/
theorem firmwareStep_clock (hact : ∀ bank, act ≠ .timer bank)
    (hstep : firmwareStep sys tbl o s act = some (s', obs)) :
    s'.count = s.count ∧ s'.client = s.client ∧ clientObs obs = [] := by
  cases act with
  | timer bank => exact absurd rfl (hact bank)
  | converted val =>
      obtain ⟨r, -, heq⟩ := Option.map_eq_some_iff.mp hstep
      cases heq
      exact ⟨rfl, rfl, clientObs_map (fun _ => rfl) _⟩
  | pinChange =>
      simp only [firmwareStep] at hstep
      split at hstep
      · cases hstep
      · cases hstep
        exact ⟨rfl, rfl, clientObs_map (fun _ => rfl) _⟩
  | radio regs =>
      cases hstep
      exact ⟨rfl, rfl, rfl⟩
  | round rv =>
      obtain ⟨r, -, heq⟩ := Option.map_eq_some_iff.mp hstep
      cases heq
      exact ⟨rfl, rfl, clientObs_map (fun _ => rfl) _⟩

/-- The clock shows its part of the trace. -/
def ClockShown (obs : List FirmwareObs) (x : List TimetickObs) : Prop := clientObs obs = x

theorem clockShown_composes : Composes ClockShown where
  nil := rfl
  append h h' := by rw [ClockShown, clientObs_append, h, h']

theorem timer_simulates (sys : UInt16) (tbl : CmdTable) (o : PostInc) :
    Simulates (firmwareStep sys tbl o) timetickStep SameClock TimetickAct.OfInterrupt
      ClockShown := by
  rintro s t act s' obs ⟨hclient, rfl⟩ hstep
  by_cases hact : ∃ bank, act = .timer bank
  · obtain ⟨bank, rfl⟩ := hact
    obtain ⟨hsame, js, hjs, hrun⟩ := timer_run (r := (s', obs)) hstep
    exact ⟨js, _, _, hjs, hrun, rfl, hsame.trans hclient, rfl⟩
  · obtain ⟨hcount, hsame, hobs⟩ := firmwareStep_clock (fun bank heq => hact ⟨bank, heq⟩) hstep
    refine ⟨[], s'.timetick, [], fun j hj => absurd hj List.not_mem_nil, ?_, hobs,
      hsame.trans hclient, rfl⟩
    have hclock : s'.timetick = s.timetick := by simp only [Firmware.timetick, hcount, hsame]
    rw [hclock]
    rfl

/-! ### Periods -/

/-- An interrupt leaves the table alone. -/
theorem ofInterrupt_client {t t' : Timetick} {j : TimetickAct} {x : List TimetickObs}
    (hj : j.OfInterrupt) (hstep : timetickStep t j = some (t', x)) : t'.client = t.client := by
  cases j with
  | interrupt =>
      simp only [timetickStep] at hstep
      split at hstep <;> cases hstep
      rfl
  | loop =>
      simp only [timetickStep] at hstep
      split at hstep
      · exact (isrStep_frame hstep).1
      · cases hstep
  | ret =>
      simp only [timetickStep] at hstep
      split at hstep <;> cases hstep
      rfl
  | _ => exact hj.elim

/-- The registrations. -/
theorem clients_table : (List.finRange clientCnt).map clients =
    [⟨50, some ledKeepaliveFn⟩, ⟨2, some processUsbFn⟩, ⟨7, some keypadTimetickFn⟩,
      ⟨6000, some vbattReadFn⟩, ⟨0, none⟩] := by decide

theorem clients_cases {i : ClientPtr} {cb : TimetickCb} {p : UInt16}
    (h : clients i = ⟨p, some cb⟩) :
    p = 50 ∧ cb = ledKeepaliveFn ∨ p = 2 ∧ cb = processUsbFn ∨
      p = 7 ∧ cb = keypadTimetickFn ∨ p = 6000 ∧ cb = vbattReadFn := by
  have hmem := List.mem_map_of_mem (f := clients) (List.mem_finRange i)
  rw [clients_table, h] at hmem
  simpa using hmem

end Clock

/-- In every run of the firmware the count follows the timer interrupts, and each client is called
    in the interrupts at which the count is a multiple of its period. So the USB stack is served in
    every second interrupt for ever; the light, the keypad and the battery voltage keep their
    periods exactly until the count wraps. -/
theorem firmware_clients (sys : UInt16) (tbl : CmdTable) (o : PostInc) (regs : RegFile)
    (mem : UsbSerial) :
    ∃ s₀, boot sys regs mem = some s₀ ∧ ∀ acts s obs,
      run (firmwareStep sys tbl o) s₀ acts = some (s, obs) →
        s.count.toNat = ticks (clientObs obs) % 65536 ∧
        ∀ i cb p, clients i = ⟨p, some cb⟩ →
          callTimes i (clientObs obs) = dueTimes 65536 p.toNat 0 (ticks (clientObs obs)) ∧
          ((callTimes i (clientObs obs)).IsChain (fun a b => b = a + p.toNat) ↔
            cb = processUsbFn ∨ ticks (clientObs obs) ≤ 65536) := by
  obtain ⟨s₀, hboot, hinit⟩ := boot_inv sys regs mem
  refine ⟨s₀, hboot, fun acts s obs hrun => ?_⟩
  have hcount₀ : s₀.count = 0 := by
    unfold boot at hboot
    obtain ⟨w, -, rfl⟩ := Option.map_eq_some_iff.mp hboot
    rfl
  obtain ⟨js, t, x, hjs, hrun', rfl, hclient, rfl⟩ :=
    (timer_simulates sys tbl o).run clockShown_composes ⟨hinit.client, rfl⟩ hrun
  have hperiod : ∀ i cb p, clients i = ⟨p, some cb⟩ →
      p ≠ 0 ∧ PeriodInv s₀.timetick i cb p s.timetick (clientObs obs) := by
    intro i cb p hi
    have hp : p ≠ 0 := by
      rcases clients_cases hi with ⟨rfl, -⟩ | ⟨rfl, -⟩ | ⟨rfl, -⟩ | ⟨rfl, -⟩ <;> decide
    have hstays₀ : Stays i cb p s₀.timetick := by
      show s₀.client i = _
      rw [hinit.client, hi]
    have hstays : Guarded timetickStep (After timetickStep (Stays i cb p)) s₀.timetick js := by
      refine @Guarded.imp_of_mem _ _ _ timetickStep TimetickAct.OfInterrupt _ _ (Stays i cb p) ?_ ?_
        js s₀.timetick hstays₀ hjs (guarded_of_forall_mem hjs s₀.timetick)
      · intro t j ht hj _ t' x hstep
        show t'.client i = _
        rw [ofInterrupt_client hj hstep]
        exact ht
      · intro t j t' x ht hj _ hstep
        show t'.client i = _
        rw [ofInterrupt_client hj hstep]
        exact ht
    refine ⟨hp, run_guarded_induction _ (fun _ _ _ _ _ h hok hstep => h.step hp hok hstep) ?_ hstays
      hrun'⟩
    refine ⟨hstays₀, ?_, rfl⟩
    exact (Nat.mod_eq_of_lt s₀.count.toNat_lt).symm
  have hzero : s₀.timetick.count.toNat = 0 := by
    show s₀.count.toNat = 0
    rw [hcount₀]
    rfl
  refine ⟨?_, fun i cb p hi => ?_⟩
  · have hled : clients firstClient = ⟨50, some ledKeepaliveFn⟩ := by decide
    have hcount := (hperiod firstClient _ _ hled).2.count
    rwa [hzero, Nat.zero_add] at hcount
  · obtain ⟨hp, hinv⟩ := hperiod i cb p hi
    have hcalls := hinv.calls
    have hnone : turns i s.timetick.isr = 0 := rfl
    rw [hzero, hnone, Nat.add_zero] at hcalls
    refine ⟨hcalls, ?_⟩
    have hpos : 0 < p.toNat := Nat.pos_of_ne_zero fun h0 => hp (UInt16.toNat_inj.mp h0)
    rw [hcalls, dueTimes_isChain_iff hpos p.toNat_lt.le (by decide : 0 < 65536)]
    rcases clients_cases hi with ⟨rfl, rfl⟩ | ⟨rfl, rfl⟩ | ⟨rfl, rfl⟩ | ⟨rfl, rfl⟩ <;>
      simp [ledKeepaliveFn, processUsbFn, keypadTimetickFn, vbattReadFn]

/-! ### The converter -/

/-- The samples of a trace. -/
def samples (obs : List FirmwareObs) : List AdcObs :=
  obs.filterMap fun
    | .sampled x => some x
    | _ => none

/-- What a client does to the converter at a count. -/
def clientKeypad (count : UInt16) (k : Keypad) (c : ClientT) : Keypad :=
  if c.cb ≠ none ∧ count % c.ticks = 0 then
    if c.cb = some keypadTimetickFn then keypadTimetickCb k
    else if c.cb = some vbattReadFn then vbattReadCb k
    else k
  else k

/-- A conversion of a key channel runs, and `vbatt_read_cb` was called behind it. -/
def Mixed (k : Keypad) : Prop :=
  ∃ k' channel, k = vbattReadCb k' ∧ k'.conversion = some channel ∧ channel ≠ 7

section Converter

variable {sys : UInt16} {tbl : CmdTable} {o : PostInc} {bank : List UInt8} {s s' : Firmware}
  {act : FirmwareAct} {obs : List FirmwareObs} {k : Keypad}

theorem clientCall_keypad (o : PostInc) (bank : List UInt8) {cb : TimetickCb} {i : ClientPtr}
    (hcb : (s.client i).cb = some cb) (hdue : s.count % (s.client i).ticks = 0) :
    (clientCall o bank cb s).1.keypad = clientKeypad s.count s.keypad (s.client i) := by
  rw [clientKeypad, if_pos ⟨by rw [hcb]; simp, hdue⟩, hcb]
  unfold clientCall
  split
  · rename_i hled
    rw [hled]
    rfl
  split
  · rename_i husb
    rw [husb]
    rfl
  · simp only [Option.some.injEq]
    split
    · rfl
    split <;> rfl

/-- The clients take their turns at the converter. -/
theorem clientLoop_keypad {is : List ClientPtr} {r : Firmware × List FirmwareObs}
    (h : clientLoop o bank is s = some r) :
    r.1.keypad = (is.map s.client).foldl (clientKeypad s.count) s.keypad := by
  induction is generalizing s r with
  | nil =>
      cases h
      rfl
  | cons i is ih =>
      rw [clientLoop] at h
      rw [List.map_cons, List.foldl_cons]
      split at h
      · rename_i hcb
        rw [ih h, clientKeypad, if_neg (by simp [hcb])]
      · rename_i cb hcb
        split at h
        · cases h
        split at h
        · rename_i hdue
          obtain ⟨r', hrest, rfl⟩ := Option.map_eq_some_iff.mp h
          obtain ⟨hcount, hclient, -⟩ := clientCall_clock o bank cb s
          show r'.1.keypad = _
          rw [ih hrest, hcount, hclient, clientCall_keypad o bank hcb hdue]
        · rename_i hdue
          rw [ih h, clientKeypad, if_neg (fun hboth => hdue hboth.2)]

/-- So a tick calls the keypad's client and the one of the battery voltage, in this order, each at
    the multiples of its period. -/
theorem timer_keypad (hclient : s.client = clients) {r : Firmware × List FirmwareObs}
    (h : timerIsr o bank s = some r) :
    r.1.keypad =
      let k := if s.count % 7 = 0 then keypadTimetickCb s.keypad else s.keypad
      if s.count % 6000 = 0 then vbattReadCb k else k := by
  obtain ⟨r', hloop, rfl⟩ := Option.map_eq_some_iff.mp h
  show r'.1.keypad = _
  rw [clientLoop_keypad hloop, hclient, clients_table]
  simp [clientKeypad, ledKeepaliveFn, processUsbFn, keypadTimetickFn, vbattReadFn]

theorem due_both_iff (count : UInt16) :
    (count % 7 = 0 ∧ count % 6000 = 0) ↔ count.toNat % 42000 = 0 := by
  have hmod : ∀ p : UInt16, count % p = 0 ↔ count.toNat % p.toNat = 0 := by
    intro p
    rw [← UInt16.toNat_inj, UInt16.toNat_mod]
    rfl
  rw [hmod, hmod]
  show count.toNat % 7 = 0 ∧ count.toNat % 6000 = 0 ↔ _
  omega

/-- A state for a key channel starts one of its conversions. -/
theorem keypadTimetickCb_channel (hidle : k.conversion = none) :
    ∃ channel, (keypadTimetickCb k).conversion = some channel ∧ channel ≠ 7 := by
  unfold keypadTimetickCb
  split
  · exact ⟨5, start_idle hidle 5 rfl, by decide⟩
  · exact ⟨6, start_idle hidle 6 rfl, by decide⟩

theorem Mixed.wrong (h : Mixed k) : ¬ ResultsRight k := by
  obtain ⟨k', channel, rfl, hconv, hchannel⟩ := h
  exact vbattReadCb_wrong hconv hchannel

theorem Mixed.running (h : Mixed k) : k.conversion ≠ none := by
  obtain ⟨k', channel, rfl, hconv, -⟩ := h
  have hconv' : (vbattReadCb k').conversion = some channel := start_busy hconv 7
  rw [hconv']
  simp

/-- The end of a conversion that is taken for another one: a result of 0xff starts the right one,
    and any other one is posted as the battery voltage. -/
theorem Mixed.complete (h : Mixed k) {val : UInt8} {k' : Keypad} {out : List AdcObs}
    (hstep : adcStep k (.complete val) = some (k', out)) :
    AdcInv k' ∧ ((∀ x ∈ out, FromChannel x) ↔ val = 0xff) := by
  obtain ⟨k₀, channel, rfl, hconv, hchannel⟩ := h
  have hconv' : (vbattReadCb k₀).conversion = some channel := start_busy hconv 7
  have hne5 : ¬ readVbatt = readAdc5 := by decide
  have hne6 : ¬ readVbatt = readAdc6 := by decide
  have hstate : (vbattReadCb k₀).state = readVbatt := rfl
  simp only [adcStep, hconv', Option.some.injEq, Prod.mk.injEq] at hstep
  obtain ⟨rfl, rfl⟩ := hstep
  simp only [adcIsr, hstate, if_neg hne5, if_neg hne6, if_true]
  by_cases hval : val = 0xff
  · have hnot : ¬ val ≠ 0xff := not_not.mpr hval
    rw [if_neg hnot]
    refine ⟨?_, iff_of_true (fun x hx => absurd hx List.not_mem_nil) hval⟩
    have hinv : AdcInv (vbattReadCb { vbattReadCb k₀ with conversion := none }) := by
      refine vbattReadCb_inv fun _ hrunning => ?_
      cases hrunning
    exact hinv
  · rw [if_pos hval]
    refine ⟨.inl rfl, iff_of_false (fun hright => ?_) hval⟩
    have hwrong := hright ⟨channel, ⟨eventVbatt, val.toUInt16⟩⟩ (List.mem_singleton_self _)
    exact hchannel (hwrong.1 rfl)

/-! ### The law -/

/-- A conversion ends before the next tick. -/
def Prompt (s : Firmware) : FirmwareAct → Prop
  | .timer _ => s.keypad.conversion = none
  | _ => True

/-- What the steps make of the samples. After a tick the running conversion is taken for what it is
    unless the count was a multiple of 42000. Its end posts from the sampled channel, unless it was
    not taken for what it is and the result is not 0xff, and behind it everything is in order. No
    other step touches the converter. -/
def SampleLaw (sys : UInt16) (tbl : CmdTable) (o : PostInc) (s : Firmware) (act : FirmwareAct) :
    Prop :=
  ∀ s' obs, firmwareStep sys tbl o s act = some (s', obs) →
    match act with
    | .timer _ => ResultsRight s'.keypad ↔ s.count.toNat % 42000 ≠ 0
    | .converted val =>
        ((∀ x ∈ samples obs, FromChannel x) ↔ ResultsRight s.keypad ∨ val = 0xff) ∧
          ResultsRight s'.keypad
    | _ => s'.keypad = s.keypad

/-- The clients are those of `ui_setup`, and the converter is in order but for a mix-up. -/
structure SampleInv (s : Firmware) : Prop where
  client : s.client = clients
  adc : AdcInv s.keypad ∨ Mixed s.keypad

theorem SampleInv.timer (h : SampleInv s) (hprompt : s.keypad.conversion = none)
    {r : Firmware × List FirmwareObs} (hisr : timerIsr o bank s = some r) :
    SampleInv r.1 ∧ (ResultsRight r.1.keypad ↔ s.count.toNat % 42000 ≠ 0) := by
  have hadc : AdcInv s.keypad := h.adc.resolve_right fun hmixed => hmixed.running hprompt
  have hclient : r.1.client = clients := (timer_run hisr).1.trans h.client
  have hidle : ∀ k : Keypad, k.conversion = none → AdcOk k .vbattTick :=
    fun k hk channel hrunning => nomatch hk.symm.trans hrunning
  have hkeypad := timer_keypad h.client hisr
  by_cases hboth : s.count % 7 = 0 ∧ s.count % 6000 = 0
  · have hmixed : Mixed r.1.keypad := by
      rw [hkeypad]
      simp only [if_pos hboth.1, if_pos hboth.2]
      obtain ⟨channel, hconv, hne⟩ := keypadTimetickCb_channel hprompt
      exact ⟨_, channel, rfl, hconv, hne⟩
    refine ⟨⟨hclient, .inr hmixed⟩, iff_of_false hmixed.wrong fun hne => ?_⟩
    exact hne ((due_both_iff s.count).mp hboth)
  · have hinv : AdcInv r.1.keypad := by
      rw [hkeypad]
      by_cases hvbatt : s.count % 6000 = 0
      · have hkey : ¬ s.count % 7 = 0 := fun hkey => hboth ⟨hkey, hvbatt⟩
        simp only [if_neg hkey, if_pos hvbatt]
        exact vbattReadCb_inv (hidle _ hprompt)
      · simp only [if_neg hvbatt]
        split
        · exact keypadTimetickCb_inv hadc
        · exact hadc
    exact ⟨⟨hclient, .inl hinv⟩,
      iff_of_true hinv.resultsRight fun hzero => hboth ((due_both_iff s.count).mpr hzero)⟩

theorem SampleInv.converted (h : SampleInv s) {val : UInt8} {r : Keypad × List AdcObs}
    (hstep : adcStep s.keypad (.complete val) = some r) :
    AdcInv r.1 ∧ ((∀ x ∈ r.2, FromChannel x) ↔ ResultsRight s.keypad ∨ val = 0xff) := by
  rcases h.adc with hadc | hmixed
  · obtain ⟨hinv, hright⟩ := complete_spec hadc hstep
    exact ⟨hinv, iff_of_true hright (.inl hadc.resultsRight)⟩
  · obtain ⟨hinv, hright⟩ := hmixed.complete hstep
    exact ⟨hinv, by rw [hright, or_iff_right hmixed.wrong]⟩

theorem samples_sampled (out : List AdcObs) : samples (out.map .sampled) = out := by
  rw [samples, List.filterMap_map]
  exact List.filterMap_some

theorem sampleInv_step (h : SampleInv s) (hprompt : Prompt s act)
    (hstep : firmwareStep sys tbl o s act = some (s', obs)) : SampleInv s' := by
  by_cases hact : ∃ bank, act = .timer bank
  · obtain ⟨bank, rfl⟩ := hact
    exact (h.timer (r := (s', obs)) hprompt hstep).1
  · have hclient := (firmwareStep_clock (fun bank heq => hact ⟨bank, heq⟩) hstep).2.1.trans h.client
    refine ⟨hclient, ?_⟩
    cases act with
    | timer bank => exact absurd ⟨bank, rfl⟩ hact
    | converted val =>
        obtain ⟨r, hadc, heq⟩ := Option.map_eq_some_iff.mp hstep
        cases heq
        exact .inl (h.converted hadc).1
    | pinChange =>
        simp only [firmwareStep] at hstep
        split at hstep <;> cases hstep
        exact h.adc
    | radio regs =>
        cases hstep
        exact h.adc
    | round rv =>
        obtain ⟨r, -, heq⟩ := Option.map_eq_some_iff.mp hstep
        cases heq
        exact h.adc

theorem SampleInv.law (h : SampleInv s) (hprompt : Prompt s act) : SampleLaw sys tbl o s act := by
  intro s' obs hstep
  cases act with
  | timer bank => exact (h.timer (r := (s', obs)) hprompt hstep).2
  | converted val =>
      obtain ⟨r, hadc, heq⟩ := Option.map_eq_some_iff.mp hstep
      cases heq
      obtain ⟨hinv, hright⟩ := h.converted hadc
      refine ⟨?_, hinv.resultsRight⟩
      rw [samples_sampled]
      exact hright
  | pinChange =>
      simp only [firmwareStep] at hstep
      split at hstep <;> cases hstep
      rfl
  | radio regs =>
      cases hstep
      rfl
  | round rv =>
      obtain ⟨r, -, heq⟩ := Option.map_eq_some_iff.mp hstep
      cases heq
      rfl

theorem sampleInv_boot {regs : RegFile} {mem : UsbSerial} (h : boot sys regs mem = some s) :
    SampleInv s := by
  unfold boot at h
  obtain ⟨w, -, rfl⟩ := Option.map_eq_some_iff.mp h
  exact ⟨rfl, .inl adcInv_init⟩

end Converter

/-- In every run of the firmware in which a conversion ends before the next tick, the samples obey
    the law: only the ticks at the counts 0 and 42000 start a conversion of a key channel whose
    result is posted as the battery voltage, unless it is 0xff. -/
theorem firmware_samples (sys : UInt16) (tbl : CmdTable) (o : PostInc) (regs : RegFile)
    (mem : UsbSerial) {acts : List FirmwareAct}
    (hprompt : ∀ s₀, boot sys regs mem = some s₀ →
      Guarded (firmwareStep sys tbl o) Prompt s₀ acts) :
    ∃ s₀, boot sys regs mem = some s₀ ∧
      Guarded (firmwareStep sys tbl o) (SampleLaw sys tbl o) s₀ acts := by
  obtain ⟨s₀, hboot, -⟩ := boot_inv sys regs mem
  have hlaw : ∀ s act, SampleInv s → Prompt s act → SampleLaw sys tbl o s act :=
    fun s act h hok => h.law hok
  have hkeeps : ∀ s act s' obs, SampleInv s → Prompt s act →
      firmwareStep sys tbl o s act = some (s', obs) → SampleInv s' :=
    fun s act s' obs h hok hstep => sampleInv_step h hok hstep
  exact ⟨s₀, hboot, Guarded.imp hlaw hkeeps (sampleInv_boot hboot) (hprompt s₀ hboot)⟩

/-- The battery is read, and the first tick finds the converter idle. -/
theorem firmware_samples_first_tick :
    ∃ s₀, boot 256 (fun _ => 0) .zero = some s₀ ∧
      Guarded (firmwareStep 256 cmdTbl .unchanged) (SampleLaw 256 cmdTbl .unchanged) s₀
        [.converted 200, .timer [], .converted 10] := by
  refine firmware_samples 256 cmdTbl .unchanged (fun _ => 0) .zero fun s₀ hboot => ?_
  refine ⟨trivial, fun s₁ obs₁ hstep => ⟨?_, fun _ _ _ => ⟨trivial, fun _ _ _ => trivial⟩⟩⟩
  unfold boot at hboot
  obtain ⟨w, -, rfl⟩ := Option.map_eq_some_iff.mp hboot
  simp only [firmwareStep] at hstep
  obtain ⟨r, hadc, heq⟩ := Option.map_eq_some_iff.mp hstep
  have hread : (adcStep keypadInit (.complete 200)).map (fun r => r.1.conversion) = some none := by
    decide
  rw [hadc] at hread
  cases heq
  exact Option.some.inj hread

end RfPirate
