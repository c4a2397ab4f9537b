/-
Module: RfPirate.Proofs.RadioIrq
Layer: Proofs
Purpose: The radio's interrupt sources. `si4432.h` puts the high byte of a mask in register 5 and
  the low byte in register 6, while the code moves masks and status through memory low byte first;
  and the interrupt's loop stops shifting at the first clear bit.
Main exports: enable_regs, disable_regs, IsrLaw, IsrOk, isrCalls_iff, irqLoop_eq_chooseWhile,
  irqExpected, pcint0_iff
-/
import RfPirate.Core.Si4432

namespace RfPirate

open Lib Lib.Machine Lib.Bytes

/-! ### Enabling and disabling sources -/

/-- The register file with other contents in the two enable registers. -/
def setEnables (regs : RegFile) (r5 r6 : UInt8) : RegFile :=
  Function.update (Function.update regs 5 r5) 6 r6

theorem setEnables_inj {regs : RegFile} {a b a' b' : UInt8} :
    setEnables regs a b = setEnables regs a' b' ↔ a = a' ∧ b = b' := by
  constructor
  · intro h
    exact ⟨by simpa [setEnables] using congrFun h 5, by simpa [setEnables] using congrFun h 6⟩
  · rintro ⟨rfl, rfl⟩
    rfl

theorem enable_regs (s : Radio) (mask : UInt16) :
    (rfEnableIsr s mask).regs =
      setEnables s.regs (s.regs 5 ||| lowByte mask) (s.regs 6 ||| highByte mask) := by
  have hwrite : ((5 : UInt8) ||| 0x80) &&& 0x7f = 5 := by decide
  have hread : (5 : UInt8) &&& 0x7f = 5 := by decide
  have hnext : (5 : UInt8) + 1 = 6 := by decide
  simp [rfEnableIsr, rfSpiWritem, rfSpiReadm, toBuf, ofBuf, burstWrite, burstRead, hwrite, hread,
    hnext, setEnables]

theorem disable_regs (s : Radio) (mask : UInt16) :
    (rfDisableIsr s mask).regs =
      setEnables s.regs (s.regs 5 &&& ~~~lowByte mask) (s.regs 6 &&& ~~~highByte mask) := by
  have hwrite : ((5 : UInt8) ||| 0x80) &&& 0x7f = 5 := by decide
  have hread : (5 : UInt8) &&& 0x7f = 5 := by decide
  have hnext : (5 : UInt8) + 1 = 6 := by decide
  simp [rfDisableIsr, rfSpiWritem, rfSpiReadm, toBuf, ofBuf, burstWrite, burstRead, hwrite, hread,
    hnext, setEnables]

/-- The pin-change interrupt of the radio is on. -/
def Radio.GateOn (s : Radio) : Prop :=
  s.pcmsk0 &&& ((1 : UInt8) <<< (4 : UInt8)) ≠ 0 ∧ s.pcicr &&& 1 ≠ 0

theorem enable_gateOn (s : Radio) (mask : UInt16) : (rfEnableIsr s mask).GateOn := by
  refine ⟨?_, by simp [rfEnableIsr]⟩
  rw [rfEnableIsr, uint8_or_and_self]
  decide

theorem disable_not_gateOn (s : Radio) (mask : UInt16) : ¬ (rfDisableIsr s mask).GateOn :=
  fun h => h.2 (by simp [rfDisableIsr])

/-- The registers a call should leave, by the bits of `si4432.h`. -/
def IsrCall.names (regs : RegFile) : IsrCall → RegFile
  | .enable mask => setEnables regs (regs 5 ||| highByte mask) (regs 6 ||| lowByte mask)
  | .disable mask => setEnables regs (regs 5 &&& ~~~highByte mask) (regs 6 &&& ~~~lowByte mask)

/-- The call sets or clears exactly the named bits, and the interrupt is on while a source is
    requested. -/
def IsrLaw (s : RadioUse) (call : IsrCall) : Prop :=
  After isrCallStep (fun s₁ => s₁.radio.regs = call.names s.radio.regs ∧
    (s₁.requested ≠ 0 → s₁.radio.GateOn)) s call

/-- The bytes of the mask differ at most in bits that both registers have set (for a disable, have
    clear) already, and a disable leaves no source requested. -/
def IsrOk (s : RadioUse) : IsrCall → Prop
  | .enable mask =>
      (lowByte mask ^^^ highByte mask) &&& ~~~s.radio.regs 5 = 0 ∧
      (lowByte mask ^^^ highByte mask) &&& ~~~s.radio.regs 6 = 0
  | .disable mask =>
      (lowByte mask ^^^ highByte mask) &&& s.radio.regs 5 = 0 ∧
      (lowByte mask ^^^ highByte mask) &&& s.radio.regs 6 = 0 ∧
      s.requested &&& ~~~mask = 0

theorem isrLaw_iff (s : RadioUse) (call : IsrCall) : IsrLaw s call ↔ IsrOk s call := by
  cases call with
  | enable mask =>
      have hregs := enable_regs s.radio mask
      have hgate := enable_gateOn s.radio mask
      have hlaw : IsrLaw s (.enable mask) ↔
          s.radio.regs 5 ||| lowByte mask = s.radio.regs 5 ||| highByte mask ∧
            s.radio.regs 6 ||| lowByte mask = s.radio.regs 6 ||| highByte mask := by
        simp [IsrLaw, After, isrCallStep, hregs, hgate, IsrCall.names, setEnables_inj,
          eq_comm (b := s.radio.regs 6 ||| highByte mask)]
      rw [hlaw, or_eq_or_iff, or_eq_or_iff, IsrOk]
  | disable mask =>
      have hregs := disable_regs s.radio mask
      have hgate := disable_not_gateOn s.radio mask
      have hlaw : IsrLaw s (.disable mask) ↔
          (s.radio.regs 5 &&& ~~~lowByte mask = s.radio.regs 5 &&& ~~~highByte mask ∧
            s.radio.regs 6 &&& ~~~lowByte mask = s.radio.regs 6 &&& ~~~highByte mask) ∧
          s.requested &&& ~~~mask = 0 := by
        simp [IsrLaw, After, isrCallStep, hregs, hgate, IsrCall.names, setEnables_inj,
          eq_comm (b := s.radio.regs 6 &&& ~~~highByte mask)]
      rw [hlaw, and_not_eq_iff, and_not_eq_iff, IsrOk, and_assoc]

/-- Over every sequence of calls and from every register file: all calls set or clear exactly the
    named bits and the interrupt stays on while a source is requested, exactly when in every call
    the bytes of the mask differ at most in bits that it leaves as they are in both registers, and
    no disable leaves a source requested. -/
theorem isrCalls_iff (radio : Radio) (calls : List IsrCall) :
    Guarded isrCallStep IsrLaw (.init radio) calls ↔
      Guarded isrCallStep IsrOk (.init radio) calls := by
  have hiff : ∀ s call, True → (IsrLaw s call ↔ IsrOk s call) := fun s call _ => isrLaw_iff s call
  exact guarded_iff hiff (fun _ _ _ _ _ _ _ => trivial) trivial

/-- `ISR_VAL_PRM_DET` is bit 6 of register 6, but enabling it sets bit 6 of register 5; and with two
    sources enabled, disabling one turns the interrupt off for the other. -/
theorem isrCalls_fails :
    let radio : Radio := { regs := fun _ => 0, pcmsk0 := 0, pcicr := 0 }
    (rfEnableIsr radio isrValPrmDet).regs 5 = 0x40 ∧
    (rfEnableIsr radio isrValPrmDet).regs 6 = 0 ∧
    ¬ Guarded isrCallStep IsrLaw (.init radio) [.enable isrValPrmDet] ∧
    ¬ (rfDisableIsr (rfEnableIsr radio (isrPktSent ||| isrPktRcvd)) isrPktSent).GateOn := by
  intro radio
  refine ⟨by decide, by decide, ?_, disable_not_gateOn _ _⟩
  rintro ⟨hlaw, -⟩
  exact absurd (congrFun (hlaw _ _ rfl).1 6) (by decide)

/-! ### Decoding the status -/

/-- The loop posts the events before the first clear bit of the word. -/
theorem irqLoop_eq_chooseWhile (evts : List UInt8) (irq : UInt16) :
    irqLoop evts irq = chooseWhile evts fun i => irq.toBitVec.getMsbD i := by
  induction evts generalizing irq with
  | nil => rfl
  | cons evt evts ih =>
      have htop : irq &&& 0x8000 ≠ 0 ↔ irq.toBitVec.getMsbD 0 = true :=
        and_twoPow_ne_zero_iff irq (k := 15) (by decide) (by decide)
      have hshift : ∀ i, (irq <<< 1).toBitVec.getMsbD i = irq.toBitVec.getMsbD (i + 1) := by
        intro i
        simp
      rw [irqLoop]
      by_cases hset : irq &&& 0x8000 ≠ 0
      · have hne : irq ≠ 0 := by
          rintro rfl
          exact hset (by decide)
        rw [if_neg hne, if_pos hset, ih, chooseWhile, if_pos (htop.mp hset)]
        simp only [hshift]
      · -- from here on the word stays as it is
        have hclear : irq.toBitVec.getMsbD 0 = false := by simpa using mt htop.mpr hset
        rw [if_neg hset, ih, chooseWhile_eq_nil hclear, chooseWhile_eq_nil hclear, ite_self]

/-- The event of each status bit, with the bits of `si4432.h`. -/
def irqSources : List (UInt16 × UInt8) :=
  [(isrFifoUndovr, eventIsrFifoUndovr), (isrFifoTxhi, eventIsrFifoTxhi),
    (isrFifoTxlo, eventIsrFifoTxlo), (isrFifoRxhi, eventIsrFifoRxhi),
    (isrExtInten, eventIsrExtInten), (isrPktSent, eventIsrPktSent),
    (isrPktRcvd, eventIsrPktRcvd), (isrCrcErr, eventIsrCrcErr), (isrSyncDet, eventIsrSyncDet),
    (isrValPrmDet, eventIsrValPrmDet), (isrInvPrmDet, eventIsrInvPrmDet),
    (isrRssi, eventIsrRssi), (isrWakeTmr, eventIsrWakeTmr), (isrLowBatt, eventIsrLowBatt),
    (isrXtalRdy, eventIsrXtalRdy), (isrPorEn, eventIsrPorEn)]

/-- The events to post for the status registers 3 and 4: one for each set bit, in order. -/
def irqExpected (s3 s4 : UInt8) : List UInt8 :=
  (irqSources.filter fun source => ofBytes s4 s3 &&& source.1 ≠ 0).map Prod.snd

/-- A source whose mask is bit `k` from the top is chosen by that bit. -/
theorem filter_sources_eq_choose (w : UInt16) {sources : List (UInt16 × UInt8)} {k : Nat}
    (hlen : k + sources.length ≤ 16)
    (hmask : ∀ i, ∀ h : i < sources.length,
      (sources[i].1).toBitVec = BitVec.twoPow 16 (15 - (k + i))) :
    (sources.filter fun source => w &&& source.1 ≠ 0).map Prod.snd =
      choose (sources.map Prod.snd) fun i => w.toBitVec.getMsbD (k + i) := by
  induction sources generalizing k with
  | nil => rfl
  | cons source sources ih =>
      rw [List.length_cons] at hlen
      have hbit : w &&& source.1 ≠ 0 ↔ w.toBitVec.getMsbD (k + 0) = true := by
        have hk : k < 16 := by omega
        have hmask₀ : source.1.toBitVec = BitVec.twoPow 16 (15 - (k + 0)) := hmask 0 (by simp)
        rw [and_twoPow_ne_zero_iff w (by omega) hmask₀, BitVec.getMsbD_eq_getLsbD]
        simp [hk]
      have hrest := ih (k := k + 1) (by omega) fun i h => by
        rw [Nat.add_assoc, Nat.add_comm 1 i]
        exact hmask (i + 1) (by simpa using h)
      have hshift : ∀ i, k + 1 + i = k + (i + 1) := by omega
      simp only [hshift] at hrest
      rw [List.map_cons, choose]
      by_cases hset : w &&& source.1 ≠ 0
      · rw [if_pos (hbit.mp hset), List.filter_cons_of_pos (by simpa using hset), List.map_cons,
          hrest]
      · rw [if_neg (mt hbit.mpr hset), List.filter_cons_of_neg (by simpa using hset), hrest]

theorem irqExpected_eq_choose (s3 s4 : UInt8) :
    irqExpected s3 s4 = choose rfIrqEvt fun i => (ofBytes s4 s3).toBitVec.getMsbD i := by
  have hmask : ∀ i, ∀ h : i < irqSources.length,
      (irqSources[i].1).toBitVec = BitVec.twoPow 16 (15 - (0 + i)) := by decide
  rw [irqExpected, filter_sources_eq_choose _ (by decide) hmask]
  simp only [Nat.zero_add]
  rfl

theorem pcint0_posts (regs : RegFile) (q : EventQueue) :
    (pcint0Isr regs q).2 =
      chooseWhile rfIrqEvt fun i => (ofBytes (regs 3) (regs 4)).toBitVec.getMsbD i := by
  have hread : (3 : UInt8) &&& 0x7f = 3 := by decide
  have hnext : (3 : UInt8) + 1 = 4 := by decide
  simp [pcint0Isr, rfSpiReadm, burstRead, ofBuf, hread, hnext, irqLoop_eq_chooseWhile]

/-- With the two bytes in the wrong order, the bits of the one word are all-ones prefixes of the
    other's only when all bits agree. -/
theorem prefix_bits_iff (s3 s4 : UInt8) :
    (∀ i < 16, ((ofBytes s4 s3).toBitVec.getMsbD i = true ↔
        ∀ j ≤ i, (ofBytes s3 s4).toBitVec.getMsbD j = true)) ↔
      (s3 = 0 ∧ s4 = 0) ∨ (s3 = 0xff ∧ s4 = 0xff) := by
  have hones : ∀ i < 8, (0xff : UInt8).toBitVec.getMsbD i = true := by decide
  have hzeros : ∀ i, (0 : UInt8).toBitVec.getMsbD i = false := fun i => by simp
  constructor
  · intro h
    have h3 : ∀ i < 8, (s3.toBitVec.getMsbD i = true ↔ ∀ j ≤ i, s4.toBitVec.getMsbD j = true) := by
      intro i hi
      rw [← getMsbD_ofBytes_high s4 s3 hi, h i (by omega)]
      refine forall₂_congr fun j hj => ?_
      rw [getMsbD_ofBytes_high s3 s4 (by omega)]
    have h4 : ∀ i < 8, (s4.toBitVec.getMsbD i = true ↔
        ∀ j ≤ 8 + i, (ofBytes s3 s4).toBitVec.getMsbD j = true) := by
      intro i hi
      rw [← getMsbD_ofBytes_low s4 s3 hi, h (8 + i) (by omega)]
    by_cases hfirst : s4.toBitVec.getMsbD 0 = true
    · have hall : ∀ i < 8, s4.toBitVec.getMsbD i = true := by
        intro i hi
        rw [← getMsbD_ofBytes_high s3 s4 hi]
        exact (h4 0 (by omega)).mp hfirst i (by omega)
      refine .inr ⟨?_, ?_⟩ <;> rw [uint8_eq_iff_getMsbD] <;> intro i hi <;> rw [hones i hi]
      · exact (h3 i hi).mpr fun j hj => hall j (by omega)
      · exact hall i hi
    · refine .inl ⟨?_, ?_⟩ <;> rw [uint8_eq_iff_getMsbD] <;> intro i hi <;> rw [hzeros i] <;>
        by_contra hbit <;> rw [Bool.not_eq_false] at hbit
      · exact hfirst ((h3 i hi).mp hbit 0 (Nat.zero_le i))
      · have hzero := (h4 i hi).mp hbit 0 (Nat.zero_le _)
        rw [getMsbD_ofBytes_high s3 s4 (by omega)] at hzero
        exact hfirst hzero
  · rintro (⟨rfl, rfl⟩ | ⟨rfl, rfl⟩)
    · decide
    · decide

/-- The interrupt posts the event of every set status bit, in order, exactly when no status bit is
    set or all of them are. -/
theorem pcint0_iff (regs : RegFile) (q : EventQueue) :
    pcint0Isr regs q =
        ((irqExpected (regs 3) (regs 4)).foldl (fun q evt => evtHandlerEvent q evt 0) q,
          irqExpected (regs 3) (regs 4)) ↔
      (regs 3 = 0 ∧ regs 4 = 0) ∨ (regs 3 = 0xff ∧ regs 4 = 0xff) := by
  have hpair : pcint0Isr regs q =
        ((irqExpected (regs 3) (regs 4)).foldl (fun q evt => evtHandlerEvent q evt 0) q,
          irqExpected (regs 3) (regs 4)) ↔
      (pcint0Isr regs q).2 = irqExpected (regs 3) (regs 4) := by
    constructor
    · intro h
      rw [h]
    · intro h
      rw [← h]
      rfl
  rw [hpair, pcint0_posts, irqExpected_eq_choose, chooseWhile_eq_choose_iff (by decide),
    ← prefix_bits_iff]
  rfl

/-- `ISR_PKT_RCVD` alone posts nothing, and `ISR_SYNC_DET` alone posts `EVENT_ISR_FIFO_UNDOVR`. -/
theorem pcint0_fails :
    let regs : UInt8 → UInt8 → RegFile :=
      fun s3 s4 r => if r = 3 then s3 else if r = 4 then s4 else 0
    (pcint0Isr (regs 0x02 0) .zero).2 = [] ∧ irqExpected 0x02 0 = [eventIsrPktRcvd] ∧
    (pcint0Isr (regs 0 0x80) .zero).2 = [eventIsrFifoUndovr] ∧
    irqExpected 0 0x80 = [eventIsrSyncDet] := by
  decide

end RfPirate
