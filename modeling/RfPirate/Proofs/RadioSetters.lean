/-
Module: RfPirate.Proofs.RadioSetters
Layer: Proofs
Purpose: Which registers and bits the setters of the radio touch. Each is local to a set of
  registers, and the sets are disjoint, so different setters commute; `rf_set_mod_src` clears the
  bits of its register that belong to nobody here, and a NaN passes the range test of `rf_set_freq`.
Main exports: Setter, Setter.registers, Setter.ownBits, SetCall.InRange, apply_local, SetLaw,
  FreqHolds, NanHolds, setLaw_iff, setCalls_iff
-/
import RfPirate.Proofs.RadioTuning
import RfPirate.Lib.Footprint

namespace RfPirate

open Lib Lib.Machine Lib.Bytes

inductive Setter where
  | freq
  | modSrc
  | txRate
  | power
deriving DecidableEq, Repr

namespace Setter

/-- The registers that a setter reads and writes. -/
def registers : Setter → List UInt8
  | .freq => [0x73, 0x74, 0x75, 0x76, 0x77, 0x79]
  | .modSrc => [0x71]
  | .txRate => [0x6e, 0x6f, 0x70]
  | .power => [0x6d]

/-- The bits of a register that a setter is there for. -/
def ownBits : Setter → UInt8 → UInt8
  | .freq, r => if r ∈ [0x73, 0x74, 0x75, 0x76, 0x77, 0x79] then 0xff else 0
  | .modSrc, r => if r = 0x71 then 0x33 else 0
  | .txRate, r => if r = 0x6e ∨ r = 0x6f then 0xff else if r = 0x70 then 0x20 else 0
  | .power, r => if r = 0x6d then 0xff else 0

/-- The setter that a register belongs to. -/
def owner (r : UInt8) : Option Setter := [freq, modSrc, txRate, power].find? (r ∈ ·.registers)

theorem owner_of_mem {a : Setter} {r : UInt8} (h : r ∈ a.registers) : owner r = some a := by
  cases a with
  | freq =>
      simp only [registers, List.mem_cons, List.not_mem_nil, or_false] at h
      obtain rfl | rfl | rfl | rfl | rfl | rfl := h <;> rfl
  | modSrc =>
      obtain rfl := List.mem_singleton.mp h
      rfl
  | txRate =>
      simp only [registers, List.mem_cons, List.not_mem_nil, or_false] at h
      obtain rfl | rfl | rfl := h <;> rfl
  | power =>
      obtain rfl := List.mem_singleton.mp h
      rfl

/-- No register has two setters. -/
theorem registers_disjoint {a b : Setter} (h : a ≠ b) :
    ∀ r ∈ {r | r ∈ a.registers}, r ∉ {r | r ∈ b.registers} := by
  intro r ha hb
  exact h (Option.some.inj ((owner_of_mem ha).symm.trans (owner_of_mem hb)))

end Setter

/-! ### Single calls -/

theorem rfSetModSrc_of_lt (regs : RegFile) {mod src : UInt8} (hmod : mod < modMax)
    (hsrc : src < srcMax) :
    rfSetModSrc regs mod src = Function.update regs 0x71 (src <<< (4 : UInt8) ||| mod) := by
  have hin : ¬ (mod ≥ modMax ∨ src ≥ srcMax) := by
    rw [not_or, UInt8.not_le, UInt8.not_le]
    exact ⟨hmod, hsrc⟩
  rw [rfSetModSrc, if_neg hin, rfSpiWrite_of_lt regs (by decide)]

theorem rfSetPower_of_lt (regs : RegFile) {pwr : UInt8} (h : pwr < rfMaxDbm) :
    rfSetPower regs pwr = Function.update regs 0x6d pwr := by
  rw [rfSetPower, if_neg (UInt8.not_le.mpr h), rfSpiWrite_of_lt regs (by decide)]

namespace SetCall

def setter : SetCall → Setter
  | .setFreq _ => .freq
  | .setModSrc _ _ => .modSrc
  | .setTxRate _ => .txRate
  | .setPower _ => .power

/-- The arguments pass the tests of the function. -/
def InRange : SetCall → Prop
  | .setFreq (.num q) => 240 ≤ q ∧ q ≤ 960
  | .setFreq (.inf _) => False
  | .setFreq (.nan _) => False
  | .setModSrc mod src => mod < modMax ∧ src < srcMax
  | .setTxRate rateKbps => rateKbps ≤ 1000
  | .setPower pwr => pwr < rfMaxDbm

/-- The frequency is a NaN. -/
def IsNan (call : SetCall) : Prop := ∃ conv, call = .setFreq (.nan conv)

theorem InRange.not_isNan {call : SetCall} (h : call.InRange) : ¬ call.IsNan := by
  rintro ⟨conv, rfl⟩
  exact h

theorem apply_of_not_inRange (regs : RegFile) {call : SetCall} (h : ¬ call.InRange)
    (hnan : ¬ call.IsNan) : call.apply regs = regs := by
  cases call with
  | setFreq freqMhz =>
      cases freqMhz with
      | num q =>
          refine rfSetFreq_of_not_mem regs ?_
          by_contra hout
          rw [not_or, not_lt, not_lt] at hout
          exact h hout
      | inf negative => exact rfSetFreq_inf regs negative
      | nan conv => exact absurd ⟨conv, rfl⟩ hnan
  | setModSrc mod src =>
      have hout : mod ≥ modMax ∨ src ≥ srcMax := by
        by_contra hin
        rw [not_or, UInt8.not_le, UInt8.not_le] at hin
        exact h hin
      rw [apply, rfSetModSrc, if_pos hout]
  | setTxRate rateKbps => exact rfSetTxRate_of_gt regs (UInt16.not_le.mp h)
  | setPower pwr =>
      have hout : pwr ≥ rfMaxDbm := UInt8.not_lt.mp h
      rw [apply, rfSetPower, if_pos hout]

/-- A write of one register whose value does not depend on the register file. -/
theorem local_const (a : Setter) {r : UInt8} (h : r ∈ a.registers) (value : UInt8) :
    Local {r | r ∈ a.registers} fun regs : RegFile => Function.update regs r value :=
  Local.update h fun _ _ _ => rfl

theorem freqRegs_local (select : UInt8) (fc : UInt16) :
    Local {r | r ∈ Setter.freq.registers} fun regs => freqRegs regs select fc := by
  have h73 := local_const .freq (r := 0x73) (by decide) 0
  have h74 := local_const .freq (r := 0x74) (by decide) 0
  have h75 := local_const .freq (r := 0x75) (by decide) select
  have h76 := local_const .freq (r := 0x76) (by decide) (lowByte fc)
  have h77 := local_const .freq (r := 0x77) (by decide) (highByte fc)
  have h79 := local_const .freq (r := 0x79) (by decide) 0
  exact ((((h73.comp h74).comp h75).comp h76).comp h77).comp h79

/-- A call reads and writes the registers of its setter only. -/
theorem apply_local (call : SetCall) :
    Local {r | r ∈ call.setter.registers} fun regs => call.apply regs := by
  by_cases hnan : call.IsNan
  · obtain ⟨conv, rfl⟩ := hnan
    simp only [apply, rfSetFreq_nan]
    exact freqRegs_local _ _
  by_cases hin : call.InRange
  · cases call with
    | setFreq freqMhz =>
        cases freqMhz with
        | num q =>
            simp only [apply, rfSetFreq_of_mem _ hin.1 hin.2]
            exact freqRegs_local _ _
        | inf negative => exact hin.elim
        | nan conv => exact hin.elim
    | setModSrc mod src =>
        simp only [apply, rfSetModSrc_of_lt _ hin.1 hin.2]
        exact local_const .modSrc (by decide) _
    | setTxRate rateKbps =>
        have h6e := local_const .txRate (r := 0x6e) (by decide)
          (lowByte (toUint16 (drArg (scaleOf rateKbps) rateKbps)))
        have h6f := local_const .txRate (r := 0x6f) (by decide)
          (highByte (toUint16 (drArg (scaleOf rateKbps) rateKbps)))
        have hmem : (0x70 : UInt8) ∈ Setter.txRate.registers := by decide
        have h70 : Local {r | r ∈ Setter.txRate.registers} fun regs : RegFile =>
            Function.update regs 0x70 (regs 0x70 &&& ~~~((1 : UInt8) <<< (5 : UInt8)) |||
              scaleOf rateKbps <<< (5 : UInt8)) :=
          Local.update hmem fun s s' hsame => by rw [hsame 0x70 hmem]
        simp only [apply, rfSetTxRate_of_le _ hin]
        exact (h6e.comp h6f).comp h70
    | setPower pwr =>
        simp only [apply, rfSetPower_of_lt _ hin]
        exact local_const .power (by decide) _
  · simp only [apply_of_not_inRange _ hin hnan]
    exact Local.id _

/-- Calls of different setters commute. -/
theorem apply_commute {call call' : SetCall} (h : call'.setter ≠ call.setter) (regs : RegFile) :
    call'.apply (call.apply regs) = call.apply (call'.apply regs) :=
  (apply_local call').commute (apply_local call) (Setter.registers_disjoint h) regs

end SetCall

/-! ### Frames -/

/-- The bits of the modulation register that are neither source nor modulation are clear. -/
def ModClear (regs : RegFile) : Prop := regs 0x71 &&& 0xcc = 0

theorem modSrc_bits : ∀ mod < 4, ∀ src < 4,
    (UInt8.ofNat src <<< (4 : UInt8) ||| UInt8.ofNat mod) &&& 0xcc = 0 := by decide

/-- The fields that `rf_set_mod_src` writes are all that it leaves in its register. -/
theorem setModSrc_modClear (regs : RegFile) {mod src : UInt8} (hmod : mod < modMax)
    (hsrc : src < srcMax) : ModClear (rfSetModSrc regs mod src) := by
  have hbits := modSrc_bits mod.toNat (UInt8.lt_iff_toNat_lt.mp hmod) src.toNat
    (UInt8.lt_iff_toNat_lt.mp hsrc)
  rw [UInt8.ofNat_toNat, UInt8.ofNat_toNat] at hbits
  rw [ModClear, rfSetModSrc_of_lt regs hmod hsrc, Function.update_self]
  exact hbits

/-- A register that is all its setter's has no other bits to keep. -/
theorem and_not_ones (x : UInt8) : x &&& ~~~0xff = 0 := by
  rw [show ~~~(0xff : UInt8) = 0 by decide, UInt8.and_zero]

/-- The bits of `r` that are not the setter's stay as they are. -/
def SetCall.Keeps (call : SetCall) (regs : RegFile) (r : UInt8) : Prop :=
  call.apply regs r &&& ~~~call.setter.ownBits r = regs r &&& ~~~call.setter.ownBits r

/-- The registers hold what `freqRegs` writes. -/
def FreqHolds (regs : RegFile) (select : UInt8) (fc : UInt16) : Prop :=
  regs 0x73 = 0 ∧ regs 0x74 = 0 ∧ regs 0x75 = select ∧ regs 0x76 = lowByte fc ∧
    regs 0x77 = highByte fc ∧ regs 0x79 = 0

theorem freqRegs_eq_self_iff (regs : RegFile) (select : UInt8) (fc : UInt16) :
    freqRegs regs select fc = regs ↔ FreqHolds regs select fc := by
  constructor
  · intro hsame
    refine ⟨?_, ?_, ?_, ?_, ?_, ?_⟩ <;> rw [← hsame] <;> rfl
  · rintro ⟨h73, h74, h75, h76, h77, h79⟩
    funext r
    simp only [freqRegs, Function.update_apply]
    split_ifs <;> simp_all only

/-- If the frequency is a NaN, the registers hold what it writes. -/
def NanHolds (regs : RegFile) : SetCall → Prop
  | .setFreq (.nan conv) => FreqHolds regs ((conv 0 - 240) / 10).toUInt8 (conv 1)
  | _ => True

theorem nanHolds_of_not_isNan (regs : RegFile) {call : SetCall} (h : ¬ call.IsNan) :
    NanHolds regs call := by
  cases call with
  | setFreq freqMhz =>
      cases freqMhz with
      | nan conv => exact absurd ⟨conv, rfl⟩ h
      | _ => exact trivial
  | _ => exact trivial

/-- Out of its range, a call that is not of a NaN writes nothing. -/
theorem apply_eq_self_iff (regs : RegFile) {call : SetCall} (h : ¬ call.InRange) :
    call.apply regs = regs ↔ NanHolds regs call := by
  by_cases hnan : call.IsNan
  · obtain ⟨conv, rfl⟩ := hnan
    rw [SetCall.apply, rfSetFreq_nan, freqRegs_eq_self_iff, NanHolds]
  · exact iff_of_true (SetCall.apply_of_not_inRange regs h hnan) (nanHolds_of_not_isNan regs hnan)

/-- What a call should do: change the bits of its setter only, nothing where an argument is out of
    range, and the same before and after a call of another setter. -/
structure SetLaw (regs : RegFile) (call : SetCall) : Prop where
  frame : ∀ r, call.Keeps regs r
  outside : ¬ call.InRange → call.apply regs = regs
  commute : ∀ call' : SetCall, call'.setter ≠ call.setter →
    call'.apply (call.apply regs) = call.apply (call'.apply regs)

/-- Registers of other setters are kept. -/
theorem forall_keeps_iff (call : SetCall) (regs : RegFile) :
    (∀ r, call.Keeps regs r) ↔ ∀ r ∈ call.setter.registers, call.Keeps regs r := by
  refine ⟨fun h r _ => h r, fun h r => ?_⟩
  by_cases hr : r ∈ call.setter.registers
  · exact h r hr
  · rw [SetCall.Keeps, call.apply_local.frame regs r hr]

/-- The registers of `rf_set_freq` are all its own. -/
theorem setFreq_keeps (regs : RegFile) (freqMhz : CFloat) (r : UInt8) :
    (SetCall.setFreq freqMhz).Keeps regs r := by
  refine (forall_keeps_iff _ regs).mpr (fun r hr => ?_) r
  have hmem : r ∈ [0x73, 0x74, 0x75, 0x76, 0x77, 0x79] := hr
  rw [SetCall.Keeps, SetCall.setter, Setter.ownBits, if_pos hmem, and_not_ones, and_not_ones]

/-- In its range, a call keeps the bits that are not its setter's, unless they are the ones that
    `rf_set_mod_src` clears. -/
theorem keeps_iff (regs : RegFile) {call : SetCall} (hin : call.InRange) :
    (∀ r, call.Keeps regs r) ↔ (call.setter = .modSrc → ModClear regs) := by
  rw [forall_keeps_iff]
  cases call with
  | setFreq freqMhz =>
      exact iff_of_true (fun r _ => setFreq_keeps regs freqMhz r) fun h => by cases h
  | setModSrc mod src =>
      have hclear : rfSetModSrc regs mod src 0x71 &&& 0xcc = 0 :=
        setModSrc_modClear regs hin.1 hin.2
      have hkeeps : (SetCall.setModSrc mod src).Keeps regs 0x71 ↔ ModClear regs := by
        have hown : ~~~Setter.modSrc.ownBits 0x71 = 0xcc := by decide
        rw [SetCall.Keeps, SetCall.apply, SetCall.setter, hown, hclear, eq_comm]
        rfl
      constructor
      · exact fun h _ => hkeeps.mp (h 0x71 (List.mem_singleton_self _))
      · intro h r hr
        obtain rfl := List.mem_singleton.mp hr
        exact hkeeps.mpr (h rfl)
  | setTxRate rateKbps =>
      refine iff_of_true (fun r hr => ?_) fun h => by cases h
      rw [SetCall.Keeps, SetCall.setter, Setter.ownBits]
      by_cases hword : r = 0x6e ∨ r = 0x6f
      · rw [if_pos hword, and_not_ones, and_not_ones]
      · have hscale : r = 0x70 := by
          simpa [hword, SetCall.setter, Setter.registers, ← or_assoc] using hr
        rw [if_neg hword, if_pos hscale, hscale]
        exact (rfSetTxRate_scale regs hin).2
  | setPower pwr =>
      refine iff_of_true (fun r hr => ?_) fun h => by cases h
      obtain rfl := List.mem_singleton.mp hr
      rw [SetCall.Keeps, SetCall.setter, Setter.ownBits, if_pos rfl, and_not_ones, and_not_ones]

theorem setLaw_iff (regs : RegFile) (call : SetCall) :
    SetLaw regs call ↔
      (call.setter = .modSrc → call.InRange → ModClear regs) ∧ NanHolds regs call := by
  constructor
  · intro hlaw
    refine ⟨fun hmod hin => (keeps_iff regs hin).mp hlaw.frame hmod, ?_⟩
    by_cases hin : call.InRange
    · exact nanHolds_of_not_isNan regs hin.not_isNan
    · exact (apply_eq_self_iff regs hin).mp (hlaw.outside hin)
  · rintro ⟨hok, hnan⟩
    refine ⟨?_, fun hin => (apply_eq_self_iff regs hin).mpr hnan,
      fun call' h => SetCall.apply_commute h regs⟩
    by_cases hin : call.InRange
    · exact (keeps_iff regs hin).mpr fun hmod => hok hmod hin
    · intro r
      rw [SetCall.Keeps, (apply_eq_self_iff regs hin).mpr hnan]

/-! ### Runs -/

/-- A call that does not set the modulation leaves its register alone. -/
theorem apply_modClear_iff (regs : RegFile) {call : SetCall}
    (h : ¬ (call.setter = .modSrc ∧ call.InRange)) :
    ModClear (call.apply regs) ↔ ModClear regs := by
  by_cases hset : call.setter = .modSrc
  · have hnan : ¬ call.IsNan := by
      rintro ⟨conv, rfl⟩
      cases hset
    rw [SetCall.apply_of_not_inRange regs (fun hin => h ⟨hset, hin⟩) hnan]
  · have hmem : (0x71 : UInt8) ∉ call.setter.registers := fun hmem =>
      hset (Option.some.inj ((Setter.owner_of_mem hmem).symm.trans rfl))
    rw [ModClear, call.apply_local.frame regs 0x71 hmem, ModClear]

theorem guarded_cons_iff (law : RegFile → SetCall → Prop) (regs : RegFile) (call : SetCall)
    (calls : List SetCall) :
    Guarded setStep law regs (call :: calls) ↔
      law regs call ∧ Guarded setStep law (call.apply regs) calls := by
  simp [Guarded, setStep]

/-- Over every register file and sequence of calls: all calls touch their own fields only, write
    nothing for an argument out of range, and commute with calls of other setters, if and only if
    the bits of the modulation register that are neither source nor modulation are clear before or
    no call sets the modulation, and every NaN finds in the registers what it would write. -/
theorem setCalls_iff (regs : RegFile) (calls : List SetCall) :
    Guarded setStep SetLaw regs calls ↔
      (ModClear regs ∨ ∀ call ∈ calls, call.setter = .modSrc → ¬ call.InRange) ∧
        Guarded setStep NanHolds regs calls := by
  induction calls generalizing regs with
  | nil => exact iff_of_true trivial ⟨.inr (by simp), trivial⟩
  | cons call calls ih =>
      rw [guarded_cons_iff, guarded_cons_iff, setLaw_iff, ih, List.forall_mem_cons]
      by_cases hmod : call.setter = .modSrc ∧ call.InRange
      · obtain ⟨hset, hin⟩ := hmod
        -- what the first call leaves has these bits clear in any case
        have hclear : ModClear (call.apply regs) := by
          cases call with
          | setModSrc mod src => exact setModSrc_modClear regs hin.1 hin.2
          | _ => cases hset
        simp [hset, hin, hclear, and_assoc]
      · have hother : call.setter = .modSrc → ¬ call.InRange := fun hset hin => hmod ⟨hset, hin⟩
        have hfree : call.setter = .modSrc → call.InRange → ModClear regs :=
          fun hset hin => absurd hin (hother hset)
        rw [apply_modClear_iff regs hmod, and_iff_right hfree, and_iff_right hother,
          and_left_comm]

/-- Over a register of all ones, setting the modulation clears four bits that are not its own, and
    a NaN clears the frequency offset. -/
theorem setCalls_fails :
    ¬ Guarded setStep SetLaw (fun _ => 0xff) [.setModSrc 1 2] ∧
    ¬ Guarded setStep SetLaw (fun _ => 0xff) [.setFreq (.nan fun _ => 0)] := by
  constructor
  · rintro ⟨hlaw, -⟩
    exact absurd (hlaw.frame 0x71) (by rw [SetCall.Keeps]; decide)
  · rintro ⟨hlaw, -⟩
    have hsame := congrFun (hlaw.outside id) 0x73
    exact absurd hsame (by decide)

end RfPirate
