/-
Module: RfPirate.Proofs.BootTimeout
Layer: Proofs
Purpose: The time-out of the bootloader. The LED goes up and down in 510 steps of 256 rounds of the
  loop, and a pulse is counted where it ends, whatever the host does; only the count starts anew
  with every command. So the round in which the loop ends is known.
Main exports: Phase, Phase.mainIteration, boot_timeout, boot_busy
-/
import RfPirate.Proofs.Bootloader

namespace RfPirate

open Lib Lib.Machine Lib.Packets

/-! ### The LED -/

/-- The steps of a pulse of the LED, up and down. -/
def pulseSteps : Nat := 510

/-- The rounds of a pulse. -/
def pulseRounds : Nat := pulseSteps * 256

/-- The brightness after `k` steps. -/
def wave (k : Nat) : Nat :=
  if k % pulseSteps ≤ 255 then k % pulseSteps else pulseSteps - k % pulseSteps

/-- The direction of the step after that. -/
def waveDirection (k : Nat) : Int := if k % pulseSteps < 255 then 1 else -1

theorem wave_succ (k : Nat) :
    ((wave k + waveDirection k) % 256).toNat = wave (k + 1) := by
  unfold wave waveDirection pulseSteps
  split_ifs <;> omega

theorem wave_eq_top_iff (k : Nat) : wave k = 255 ↔ k % pulseSteps = 255 := by
  unfold wave pulseSteps
  split_ifs <;> omega

theorem wave_eq_zero_iff (k : Nat) : wave k = 0 ↔ k % pulseSteps = 0 := by
  unfold wave pulseSteps
  split_ifs <;> omega

section Led

variable {m m' : BootMain} {n : Nat}

/-- Where the LED is after `n` rounds. -/
structure Phase (n : Nat) (m : BootMain) : Prop where
  pwmcounter : m.pwmcounter = n % 256
  brightness : m.brightness = wave (n / 256)
  pulsedirection : m.pulsedirection = waveDirection (n / 256)

theorem phase_init (mem : AvrMemory) : Phase 0 (BootMain.init mem) := ⟨rfl, rfl, rfl⟩

/-- The brightness that the loop computes is that of the next round. -/
theorem Phase.nextBrightness (h : Phase n m) :
    (if (m.pwmcounter + 1) % 256 = 0 then ((m.brightness + m.pulsedirection) % 256).toNat
      else m.brightness) = wave ((n + 1) / 256) := by
  rw [h.pwmcounter, h.brightness, h.pulsedirection]
  by_cases hstep : (n % 256 + 1) % 256 = 0
  · have hnext : (n + 1) / 256 = n / 256 + 1 := by omega
    rw [if_pos hstep, wave_succ, hnext]
  · have hsame : (n + 1) / 256 = n / 256 := by omega
    rw [if_neg hstep, hsame]

/-- The direction, turned round at the top, before the end of a pulse is looked for. -/
theorem Phase.nextDirection (h : Phase n m) :
    (if wave ((n + 1) / 256) = 255 then -1 else m.pulsedirection) =
      if (n + 1) % pulseRounds = 0 then -1 else waveDirection ((n + 1) / 256) := by
  rw [h.pulsedirection]
  simp only [wave_eq_top_iff]
  unfold waveDirection pulseRounds pulseSteps
  split_ifs <;> omega

/-- A pulse ends where 510 steps are over, and there alone. -/
theorem Phase.ended_iff :
    (wave ((n + 1) / 256) = 0 ∧
      (if (n + 1) % pulseRounds = 0 then -1 else waveDirection ((n + 1) / 256)) ≠ 1) ↔
        (n + 1) % pulseRounds = 0 := by
  rw [wave_eq_zero_iff]
  unfold waveDirection pulseRounds pulseSteps
  split_ifs <;> omega

theorem Phase.pulse (h : Phase n m) :
    Phase (n + 1) (pulse m) ∧
      (pulse m).boot.boottimeout =
        if (n + 1) % pulseRounds = 0 then (m.boot.boottimeout + 1) % 256
        else m.boot.boottimeout := by
  simp only [RfPirate.pulse, h.nextBrightness, h.nextDirection, Phase.ended_iff]
  refine ⟨⟨?_, rfl, ?_⟩, ?_⟩
  · show (m.pwmcounter + 1) % 256 = (n + 1) % 256
    rw [h.pwmcounter]
    omega
  · show (if (n + 1) % pulseRounds = 0 then 1 else _) = waveDirection ((n + 1) / 256)
    by_cases hend : (n + 1) % pulseRounds = 0
    · rw [if_pos hend]
      unfold waveDirection
      unfold pulseRounds pulseSteps at *
      exact (if_pos (by omega)).symm
    · rw [if_neg hend, if_neg hend]
  · split <;> rfl

end Led

/-! ### Rounds -/

section Rounds

variable {m m₀ m' : BootMain} {n : Nat} {css : List (List (BootCommand × Bool))}
  {packets : List (List UInt8)} {rounds : List (List (List UInt8))} {o : List Unit}

theorem Phase.mainIteration (h : Phase n m) (packets : List (List UInt8)) :
    Phase (n + 1) (mainIteration packets m) := by
  have hled := (Phase.pulse (m := { m with
    boot := cdcTask { m.boot with out := m.boot.out ++ packets } }) ⟨h.1, h.2, h.3⟩).1
  exact ⟨hled.1, hled.2, hled.3⟩

/-- The LED keeps time over any rounds. -/
theorem Phase.run (h : Phase n m) (hrun : run bootStep m rounds = some (m', o)) :
    Phase (n + rounds.length) m' := by
  induction rounds generalizing n m o with
  | nil =>
      cases hrun
      exact h
  | cons packets rounds ih =>
      obtain ⟨m₁, o₁, o₂, hstep, hrest, -⟩ := run_cons_inv hrun
      obtain ⟨-, rfl⟩ := bootStep_inv hstep
      have hend := ih (h.mainIteration packets) hrest
      rwa [Nat.add_right_comm, Nat.add_assoc] at hend

/-- The count of pulses after a round, before it is looked at. -/
def pulseCount (l n : Nat) : Nat := n / pulseRounds - (l - 1) / pulseRounds

/-- The application can be started. -/
def HasApplication (m : BootMain) : Prop := m.boot.target.mem.pgmReadWord 0 ≠ 0xffff

/-- The round that is the last one when nothing arrives after round `l`: the tenth pulse from that
    round on ends in it. -/
def lastRound (l : Nat) : Nat := ((l - 1) / pulseRounds + bootloadtimeout) * pulseRounds

/-- The loop is in round `n`, nothing has arrived since round `l`, and then the state was `m₀`. -/
structure Waits (m₀ : BootMain) (l n : Nat) (m : BootMain) : Prop where
  phase : Phase n m
  boottimeout : m.boot.boottimeout = pulseCount l n % 256
  target : m.boot.target = m₀.boot.target
  out : m.boot.out = []

theorem pulseCount_succ {l n : Nat} (hln : l ≤ n) :
    pulseCount l (n + 1) = pulseCount l n + if (n + 1) % pulseRounds = 0 then 1 else 0 := by
  unfold pulseCount pulseRounds pulseSteps
  split <;> omega

theorem pulseCount_lt_iff {l n : Nat} : pulseCount l n < bootloadtimeout ↔ n < lastRound l := by
  unfold pulseCount lastRound pulseRounds pulseSteps bootloadtimeout
  omega

/-- A round in which nothing arrives. -/
theorem mainIteration_idle (hout : m.boot.out = []) :
    mainIteration [] m = { pulse m with boot := checkTimeout (pulse m).boot } := by
  have hsame : cdcTask { m.boot with out := m.boot.out ++ [] } = m.boot := by
    rw [List.append_nil, cdcTask, if_pos hout]
  unfold mainIteration
  rw [hsame]

/-- The time is over at the end of the round, and there is an application. -/
def Due (m₀ : BootMain) (l n : Nat) : Prop :=
  bootloadtimeout ≤ pulseCount l n % 256 ∧ HasApplication m₀

/-- Another round in which nothing arrives. -/
theorem Waits.mainIteration {l : Nat} (h : Waits m₀ l n m) (hln : l ≤ n) :
    (Due m₀ l (n + 1) → (mainIteration [] m).boot.target.runBootloader = false) ∧
      (¬ Due m₀ l (n + 1) → Waits m₀ l (n + 1) (mainIteration [] m)) := by
  obtain ⟨hphase, hcount⟩ := h.phase.pulse
  obtain ⟨k, hboot⟩ := pulse_boot m
  have htarget : (pulse m).boot.target = m₀.boot.target := by rw [hboot, ← h.target]
  have hout : (pulse m).boot.out = [] := by rw [hboot, ← h.out]
  have hnext : (pulse m).boot.boottimeout = pulseCount l (n + 1) % 256 := by
    rw [hcount, h.boottimeout, pulseCount_succ hln]
    split <;> omega
  have hdue : Due m₀ l (n + 1) ↔ (pulse m).boot.boottimeout ≥ bootloadtimeout ∧
      (pulse m).boot.target.mem.pgmReadWord 0 ≠ 0xffff := by
    rw [hnext, htarget]
    rfl
  rw [mainIteration_idle h.out, checkTimeout, hdue]
  constructor
  · intro hover
    rw [if_pos hover]
    rfl
  · intro hnot
    rw [if_neg hnot]
    exact ⟨⟨hphase.1, hphase.2, hphase.3⟩, hnext, htarget, hout⟩

theorem lt_lastRound (l : Nat) : l < lastRound l := by
  unfold lastRound bootloadtimeout pulseRounds pulseSteps
  omega

/-- Where it was not over a round before, the time is over if the last round is reached. -/
theorem due_succ_iff {l : Nat} (hln : l ≤ n) (hlast : HasApplication m₀ → n < lastRound l) :
    Due m₀ l (n + 1) ↔ HasApplication m₀ ∧ ¬ n + 1 < lastRound l := by
  have hsucc := pulseCount_succ hln
  have hcount := pulseCount_lt_iff (l := l) (n := n)
  rw [Due, and_comm, ← pulseCount_lt_iff]
  refine and_congr_right fun happ => ?_
  have hbefore := hcount.mpr (hlast happ)
  unfold bootloadtimeout at *
  split at hsucc <;> omega

/-- While the time is not over the loop goes round. -/
theorem Waits.run {l n : Nat} (h : Waits m₀ l l m)
    (hloop : m₀.boot.target.runBootloader = true)
    (hlast : HasApplication m₀ → l + n < lastRound l) :
    ∃ m' o, Machine.run bootStep m (List.replicate n []) = some (m', o) ∧
      Waits m₀ l (l + n) m' := by
  induction n with
  | zero => exact ⟨m, [], rfl, h⟩
  | succ n ih =>
      have hearlier : HasApplication m₀ → l + n < lastRound l := fun happ =>
        Nat.lt_of_succ_lt (hlast happ)
      obtain ⟨m₁, o₁, hrun, hwaits⟩ := ih hearlier
      have hgoes : m₁.boot.target.runBootloader = true := by rw [hwaits.target, hloop]
      have hnot : ¬ Due m₀ l (l + n + 1) := fun hdue =>
        absurd hdue ((due_succ_iff (Nat.le_add_right l n) hearlier).not.mpr
          fun hover => hover.2 (hlast hover.1))
      refine ⟨RfPirate.mainIteration [] m₁, o₁ ++ [], ?_,
        (hwaits.mainIteration (Nat.le_add_right l n)).2 hnot⟩
      rw [List.replicate_succ']
      exact run_append hrun (by simp [Machine.run, bootStep, hgoes])

/-- Where the loop still goes round, the time was not over. -/
theorem Waits.of_run {l n : Nat} (h : Waits m₀ l l m)
    (hrun : Machine.run bootStep m (List.replicate n []) = some (m', o))
    (hloop : m'.boot.target.runBootloader = true) :
    Waits m₀ l (l + n) m' ∧ (HasApplication m₀ → l + n < lastRound l) := by
  induction n generalizing m' o with
  | zero =>
      cases hrun
      exact ⟨h, fun _ => lt_lastRound l⟩
  | succ n ih =>
      rw [List.replicate_succ'] at hrun
      obtain ⟨m₁, o₁, o₂, hfirst, hlater⟩ := run_append_inv hrun
      obtain ⟨m₂, _, _, hstep, hend, -⟩ := run_cons_inv hlater
      cases hend
      obtain ⟨hgoes, rfl⟩ := bootStep_inv hstep
      obtain ⟨hwaits, hearlier⟩ := ih hfirst hgoes
      obtain ⟨hover, hgoesOn⟩ := hwaits.mainIteration (Nat.le_add_right l n)
      have hnot : ¬ Due m₀ l (l + n + 1) := fun hdue => by
        rw [hover hdue] at hloop
        cases hloop
      refine ⟨hgoesOn hnot, fun happ => ?_⟩
      rw [due_succ_iff (Nat.le_add_right l n) hearlier, not_and, Classical.not_not] at hnot
      exact hnot happ

end Rounds

/-! ### The loop -/

section Loop

variable {mem : AvrMemory} {m m' : BootMain} {css : List (List (BootCommand × Bool))}
  {cs : List (BootCommand × Bool)} {rounds : List (List (List UInt8))} {packets : List (List UInt8)}
  {o : List Unit}

/-- A round with a command starts the count anew. -/
theorem cdcTask_boottimeout {s : Boot} (hround : RoundCarries cs packets) (hpackets : packets ≠ [])
    (hbank : s.tx.bank = []) (hout : s.out = packets) : (cdcTask s).boottimeout = 0 := by
  cases hround with
  | idle => exact absurd rfl hpackets
  | whole c _ hvalid hcarries =>
      obtain ⟨qs, -, htask⟩ := cdcTask_whole (s := s) c hvalid hcarries
        (show s.out = packets ++ [] by rw [hout, List.append_nil]) hbank
      rw [htask]
  | cut c _ k hvalid hne hbytes =>
      rw [← hout] at hne hbytes
      rw [cdcTask_cut c hvalid hne hbytes]

theorem mainIteration_boot (packets : List (List UInt8)) (m : BootMain) :
    (mainIteration packets m).boot = checkTimeout (pulse { m with
      boot := cdcTask { m.boot with out := m.boot.out ++ packets } }).boot := rfl

theorem checkTimeout_boottimeout (s : Boot) : (checkTimeout s).boottimeout = s.boottimeout := by
  unfold checkTimeout
  split <;> rfl

/-- Of the pulses that ended up to a command, the round of the command has at most its own. -/
theorem mainIteration_boottimeout {t : Target} {answers : List (List UInt8)} {n : Nat}
    (hphase : Phase n m) (hsession : InSession t answers m.boot) (hround : RoundCarries cs packets)
    (hpackets : packets ≠ []) :
    (mainIteration packets m).boot.boottimeout = pulseCount (n + 1) (n + 1) % 256 := by
  have htask := cdcTask_boottimeout (s := { m.boot with out := m.boot.out ++ packets }) hround
    hpackets hsession.bank (by rw [hsession.out, List.nil_append])
  have hcount := (Phase.pulse (m := { m with
    boot := cdcTask { m.boot with out := m.boot.out ++ packets } })
    ⟨hphase.1, hphase.2, hphase.3⟩).2
  rw [mainIteration_boot, checkTimeout_boottimeout, hcount, htask]
  unfold pulseCount pulseRounds pulseSteps
  split <;> omega

/-- The loop starts to wait when it starts, and after every command. -/
theorem waits_start (hrounds : List.Forall₂ RoundCarries css rounds)
    (hrun : run bootStep (BootMain.init mem) rounds = some (m, o))
    (hlast : rounds.getLast? ≠ some []) (hloop : m.boot.target.runBootloader = true) :
    Waits m rounds.length rounds.length m := by
  have hphase := (phase_init mem).run hrun
  rw [Nat.zero_add] at hphase
  obtain ⟨_, _, -, hsession⟩ := (inSession_init mem).run hrounds hrun
  refine ⟨hphase, ?_, rfl, hsession.out⟩
  rcases List.eq_nil_or_concat rounds with rfl | ⟨earlier, packets, rfl⟩
  · cases hrun
    rfl
  · rw [List.concat_eq_append] at *
    have hpackets : packets ≠ [] := by simpa using hlast
    obtain ⟨m₁, o₁, o₂, hfirst, hlater⟩ := run_append_inv hrun
    obtain ⟨m₂, _, _, hstep, hend, -⟩ := run_cons_inv hlater
    cases hend
    obtain ⟨hgoes, rfl⟩ := bootStep_inv hstep
    obtain ⟨_, _, -, hbefore⟩ :=
      (inSession_init mem).run (List.forall₂_take_append _ _ _ hrounds) hfirst
    have hbeforePhase := (phase_init mem).run hfirst
    rw [Nat.zero_add] at hbeforePhase
    obtain ⟨cs, _, hround, -, -⟩ :=
      List.forall₂_cons_right_iff.mp (List.forall₂_drop_append _ _ _ hrounds)
    rw [mainIteration_boottimeout hbeforePhase hbefore hround hpackets, List.length_append,
      List.length_singleton]

/-- The time-out: in the rounds after the last command the loop goes round until the tenth pulse of
    the LED ends, the one that the command came in included; without an application for ever. -/
theorem boot_timeout (hrounds : List.Forall₂ RoundCarries css rounds)
    (hrun : run bootStep (BootMain.init mem) rounds = some (m, o))
    (hlast : rounds.getLast? ≠ some []) (hloop : m.boot.target.runBootloader = true) (n : Nat) :
    (∃ m' o', run bootStep m (List.replicate n []) = some (m', o') ∧
      m'.boot.target.runBootloader = true) ↔
    (m.boot.target.mem.pgmReadWord 0 ≠ 0xffff → rounds.length + n < lastRound rounds.length) := by
  have hwaits := waits_start hrounds hrun hlast hloop
  constructor
  · rintro ⟨m', o', hidle, hgoes⟩
    exact (hwaits.of_run hidle hgoes).2
  · intro hearly
    obtain ⟨m', o', hidle, hend⟩ := hwaits.run hloop hearly
    exact ⟨m', o', hidle, by rw [hend.target, hloop]⟩

/-- A part with an application, after one command. -/
theorem boot_timeout_command : ∃ m : BootMain,
    (∃ m' o', run bootStep m (List.replicate 1305598 []) = some (m', o') ∧
      m'.boot.target.runBootloader = true) ∧
    ¬ ∃ m' o', run bootStep m (List.replicate 1305599 []) = some (m', o') ∧
      m'.boot.target.runBootloader = true := by
  have hround : RoundCarries [(.softwareId, true)] [[chr 'S']] :=
    .whole _ _ trivial (.last (chr 'S') [] [])
  have hruns : (run bootStep (BootMain.init { AvrMemory.erased with
      flash := ⟨fun _ => 0, fun _ => none⟩ }) [[[chr 'S']]]).map (fun r =>
        (r.1.boot.target.runBootloader, r.1.boot.target.mem.pgmReadWord 0)) = some (true, 0) := by
    decide +kernel
  obtain ⟨⟨m, o⟩, hrun, hm⟩ := Option.map_eq_some_iff.mp hruns
  obtain ⟨hloop, hword⟩ := Prod.mk.inj hm
  have happ : m.boot.target.mem.pgmReadWord 0 ≠ 0xffff := by
    rw [hword]
    decide
  have hrounds : List.Forall₂ RoundCarries [[(.softwareId, true)]] [[[chr 'S']]] :=
    .cons hround .nil
  exact ⟨m, (boot_timeout hrounds hrun (by decide) hloop 1305598).mpr fun _ => by decide,
    fun hlate => absurd ((boot_timeout hrounds hrun (by decide) hloop 1305599).mp hlate happ)
      (by decide)⟩

/-- Only one command ends the loop. -/
theorem exec_runBootloader {t : Target} {c : BootCommand} (hc : c ≠ .exit) :
    (BootCommand.exec t c).1.runBootloader = t.runBootloader := by
  have hmem : ∀ (t : Target) mem, ({ t with mem := mem } : Target).runBootloader =
      t.runBootloader := fun _ _ => rfl
  have hadvance : ∀ n (t : Target), (Target.advance^[n] t).runBootloader = t.runBootloader := by
    intro n
    induction n with
    | zero => exact fun _ => rfl
    | succ n ih => exact fun t => ih t.advance
  have hfill : ∀ data (t : Target),
      (BootCommand.fillWords data t).runBootloader = t.runBootloader := by
    intro data t
    induction data, t using BootCommand.fillWords.induct with
    | case1 low high data t ih => exact ih
    | case2 data t hdata => rw [BootCommand.fillWords.eq_2 _ _ hdata]
  have hwrite : ∀ data (t : Target),
      (BootCommand.writeBytes data t).runBootloader = t.runBootloader := by
    intro data
    induction data with
    | nil => exact fun _ => rfl
    | cons b data ih => exact fun t => ih _
  cases c with
  | exit => exact absurd rfl hc
  | writeFlash data => exact hfill data _
  | writeEeprom data => exact hwrite data _
  | readFlash n => exact hadvance (n / 2) _
  | readEeprom n => exact hadvance n _
  | eraseChip => exact hmem t (chipErase 0 t.mem)
  | _ => rfl

/-- The loop goes on after a round with a command that does not end it. -/
theorem mainIteration_busy {t : Target} {answers : List (List UInt8)} {n : Nat}
    (hphase : Phase n m) (hsession : InSession t answers m.boot)
    (hloop : m.boot.target.runBootloader = true) (hround : RoundCarries cs packets)
    (hpackets : packets ≠ []) (hexit : ∀ c ∈ cs, c.1 ≠ .exit) :
    (mainIteration packets m).boot.target.runBootloader = true := by
  have hcount := mainIteration_boottimeout hphase hsession hround hpackets
  have hsmall : pulseCount (n + 1) (n + 1) % 256 < bootloadtimeout := by
    unfold pulseCount pulseRounds pulseSteps bootloadtimeout
    omega
  obtain ⟨k, hboot⟩ := pulse_boot { m with
    boot := cdcTask { m.boot with out := m.boot.out ++ packets } }
  have hout : m.boot.out ++ packets = packets := by rw [hsession.out, List.nil_append]
  have htask : (cdcTask { m.boot with out := m.boot.out ++ packets }).target.runBootloader =
      true := by
    rw [hout]
    cases hround with
    | idle => exact absurd rfl hpackets
    | whole c _ hvalid hcarries =>
        obtain ⟨qs, -, htask⟩ := cdcTask_whole (s := { m.boot with out := packets }) c hvalid
          hcarries (List.append_nil packets).symm hsession.bank
        rw [htask, exec_runBootloader (hexit _ List.mem_cons_self), hloop]
    | cut c _ k hvalid hne hbytes =>
        rw [cdcTask_cut (s := { m.boot with out := packets }) c hvalid hne hbytes,
          exec_runBootloader (hexit _ List.mem_cons_self), hloop]
  rw [mainIteration_boot, checkTimeout_boottimeout] at hcount
  rw [mainIteration_boot, checkTimeout, if_neg fun hover => by omega, hboot]
  exact htask

/-- While every round brings a command, the loop goes on. -/
theorem busy_run {t : Target} {answers : List (List UInt8)} {n : Nat} (hphase : Phase n m)
    (hsession : InSession t answers m.boot) (hloop : m.boot.target.runBootloader = true)
    (hrounds : List.Forall₂ RoundCarries css rounds) (hbusy : ∀ ps ∈ rounds, ps ≠ [])
    (hexit : ∀ c ∈ css.flatten, c.1 ≠ .exit) :
    ∃ m' o, run bootStep m rounds = some (m', o) ∧ m'.boot.target.runBootloader = true := by
  induction hrounds generalizing m t answers n with
  | nil => exact ⟨m, [], rfl, hloop⟩
  | @cons cs packets css rounds hround _ ih =>
      have hnow : ∀ c ∈ cs, c.1 ≠ .exit := fun c hc =>
        hexit c (List.mem_append_left _ hc)
      have hpackets := hbusy packets List.mem_cons_self
      obtain ⟨t₁, answers₁, -, hnext⟩ := hsession.mainIteration hloop hround
      obtain ⟨m', o, hrest, hend⟩ := ih (hphase.mainIteration packets) hnext
        (mainIteration_busy hphase hsession hloop hround hpackets hnow)
        (fun ps hps => hbusy ps (List.mem_cons_of_mem packets hps))
        (fun c hc => hexit c (List.mem_append_right cs hc))
      have hstep : bootStep m packets = some (mainIteration packets m, []) := if_pos hloop
      exact ⟨m', _, run_cons hstep hrest, hend⟩

end Loop

/-- A host that sends a command in every round is never timed out. -/
theorem boot_busy {mem : AvrMemory} {rounds : List (List (List UInt8))}
    {css : List (List (BootCommand × Bool))} (hrounds : List.Forall₂ RoundCarries css rounds)
    (hbusy : ∀ ps ∈ rounds, ps ≠ []) (hexit : ∀ c ∈ css.flatten, c.1 ≠ .exit) :
    ∃ m' o, run bootStep (BootMain.init mem) rounds = some (m', o) ∧
      m'.boot.target.runBootloader = true :=
  busy_run (phase_init mem) (inSession_init mem) rfl hrounds hbusy hexit

/-- Two commands that follow each other at once. -/
theorem boot_busy_two : ∃ m' o,
    run bootStep (BootMain.init .erased) [[[chr 'P']], [[chr 'd']]] = some (m', o) ∧
      m'.boot.target.runBootloader = true :=
  boot_busy
    (.cons (.whole .enter _ trivial (.last (chr 'P') [] []))
      (.cons (.whole .readByte _ trivial (.last (chr 'd') [] [])) .nil))
    (by decide) (by
      intro c hc
      simp only [List.flatten_cons, List.flatten_nil, List.append_nil, List.mem_append,
        List.mem_singleton] at hc
      rcases hc with rfl | rfl
      · exact fun h => BootCommand.noConfusion h
      · exact fun h => BootCommand.noConfusion h)

end RfPirate
