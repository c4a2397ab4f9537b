/-
Module: RfPirate.Proofs.RadioTuning
Layer: Proofs
Purpose: What `rf_set_freq` and `rf_set_tx_rate` make of their argument. Both compute the right
  number, and write its bytes in the order in which the controller has them in memory, where the
  radio has the high byte first.
Main exports: rfSpiWrite_of_lt, rfSpiWritem_toBuf, swapped_eq_iff, carrier, FreqLaw, freqLaw_iff,
  rateStep, RateLaw, rateLaw_iff
-/
import RfPirate.Core.RfSetters
import Mathlib.Algebra.Order.Floor.Semifield
import Mathlib.Tactic.Linarith
import Mathlib.Tactic.FieldSimp
import Mathlib.Tactic.Ring

namespace RfPirate

open Lib Lib.Bytes

/-! ### Single registers -/

theorem readAddr_eq {addr : UInt8} (h : addr < 0x80) : addr &&& 0x7f = addr := by
  have hlt : addr.toNat < 2 ^ 7 := h
  rw [← UInt8.toNat_inj, UInt8.toNat_and]
  exact (Nat.and_two_pow_sub_one_eq_mod _ 7).trans (Nat.mod_eq_of_lt hlt)

/-- The address byte of a write names the register, up to 0x7f. -/
theorem writeAddr_eq {addr : UInt8} (h : addr < 0x80) : (addr ||| 0x80) &&& 0x7f = addr := by
  have hflag : (0x80 : UInt8) &&& 0x7f = 0 := by decide
  rw [uint8_or_and_right, readAddr_eq h, hflag, UInt8.or_zero]

theorem rfSpiWrite_of_lt (regs : RegFile) {addr : UInt8} (h : addr < 0x80) (data : UInt8) :
    rfSpiWrite regs addr data = Function.update regs addr data := by
  rw [rfSpiWrite, rfSpiWritem, writeAddr_eq h, burstWrite, burstWrite]

theorem rfSpiWritem_toBuf (regs : RegFile) {addr : UInt8} (h : addr < 0x80) (w : UInt16) :
    rfSpiWritem regs addr (toBuf w) =
      Function.update (Function.update regs addr (lowByte w)) (addr + 1) (highByte w) := by
  rw [rfSpiWritem, writeAddr_eq h, toBuf, burstWrite, burstWrite, burstWrite]

theorem rfSpiRead_of_lt (regs : RegFile) {addr : UInt8} (h : addr < 0x80) :
    rfSpiRead regs addr = regs addr := by
  rw [rfSpiRead, rfSpiReadm, readAddr_eq h, burstRead, burstRead, List.headD_cons]

/-! ### Words with their bytes swapped -/

theorem toNat_lowByte (w : UInt16) : (lowByte w).toNat = w.toNat % 256 := by
  simp [lowByte]

theorem toNat_highByte (w : UInt16) : (highByte w).toNat = w.toNat / 256 := by
  have hlt : w.toNat < 65536 := w.toNat_lt
  have hshift : (w >>> 8).toNat = w.toNat / 256 := by
    simp [UInt16.toNat_shiftRight, Nat.shiftRight_eq_div_pow]
  rw [highByte, UInt16.toNat_toUInt8, hshift]
  omega

/-- A word reads the same with its bytes swapped when they are equal. -/
theorem swapped_eq_iff {n : Nat} (hn : n < 65536) :
    256 * (n % 256) + n / 256 = n ↔ ∃ k, n = 257 * k := by
  constructor
  · intro h
    exact ⟨n % 256, by omega⟩
  · rintro ⟨k, rfl⟩
    omega

theorem toNat_toUint16 {q : ℚ} (h : ⌊q⌋₊ < 65536) : (toUint16 q).toNat = ⌊q⌋₊ := by
  rw [toUint16, UInt16.toNat_ofNat']
  exact Nat.mod_eq_of_lt h

/-! ### Frequency -/

/-- The width of the bands that `fb` counts, at this frequency. -/
def band (f : ℚ) : ℚ := if f ≥ 480 then 20 else 10

/-- The whole bands above 240 MHz (480 MHz in the high band). -/
theorem toNat_fb {g : ℚ} (hlow : 240 ≤ g) (hhigh : g ≤ 480) :
    ((toUint16 g - 240) / 10).toNat + 24 = ⌊g / 10⌋₊ ∧ ((toUint16 g - 240) / 10).toNat ≤ 24 := by
  have hfloor : 240 ≤ ⌊g⌋₊ := Nat.le_floor (by exact_mod_cast hlow)
  have hfloor' : ⌊g⌋₊ ≤ 480 := Nat.floor_le_of_le (by exact_mod_cast hhigh)
  have hg : (toUint16 g).toNat = ⌊g⌋₊ := toNat_toUint16 (by omega)
  have hsub : (toUint16 g - 240).toNat = ⌊g⌋₊ - 240 := by
    have hle : (240 : UInt16) ≤ toUint16 g := by
      rw [UInt16.le_iff_toNat_le, hg]
      exact hfloor
    rw [UInt16.toNat_sub_of_le _ _ hle, hg]
    rfl
  have hdiv : ⌊g / 10⌋₊ = ⌊g⌋₊ / 10 := Nat.floor_div_ofNat g 10
  have hfb : ((toUint16 g - 240) / 10).toNat = (⌊g⌋₊ - 240) / 10 := by
    rw [UInt16.toNat_div, hsub]
    rfl
  omega

/-- What is left of a number when its whole part is taken off. -/
theorem sub_floor_eq_fract {x : ℚ} {fb : Nat} (hx : 0 ≤ x) (h : fb + 24 = ⌊x⌋₊) :
    x - fb - 24 = Int.fract x := by
  have hcast : (fb : ℚ) + 24 = (⌊x⌋ : ℚ) := by
    rw [← natCast_floor_eq_intCast_floor hx, ← h]
    push_cast
    rfl
  rw [← Int.self_sub_floor, ← hcast]
  ring

/-- The band, as `rf_set_freq` counts it. -/
def fbOf (f : ℚ) : UInt16 := ((if f ≥ 480 then toUint16 (f / 2) else toUint16 f) - 240) / 10

/-- The 16-bit fraction of a band. -/
def fcOf (f : ℚ) : UInt16 := toUint16 (Int.fract (f / band f) * 64000)

theorem toNat_fcOf (f : ℚ) :
    (fcOf f).toNat = ⌊Int.fract (f / band f) * 64000⌋₊ ∧ (fcOf f).toNat < 64000 := by
  have hnonneg : 0 ≤ Int.fract (f / band f) * 64000 :=
    mul_nonneg (Int.fract_nonneg _) (by norm_num)
  have hlt : ⌊Int.fract (f / band f) * 64000⌋₊ < 64000 := by
    rw [Nat.floor_lt hnonneg]
    have hone := Int.fract_lt_one (f / band f)
    push_cast
    linarith
  have hfc : (fcOf f).toNat = ⌊Int.fract (f / band f) * 64000⌋₊ := toNat_toUint16 (by omega)
  exact ⟨hfc, hfc ▸ hlt⟩

theorem toNat_fbOf {f : ℚ} (hlow : 240 ≤ f) (hhigh : f ≤ 960) :
    (fbOf f).toNat + 24 = ⌊f / band f⌋₊ ∧ (fbOf f).toNat ≤ 24 := by
  by_cases hband : f ≥ 480
  · have hdiv : f / band f = f / 2 / 10 := by
      rw [band, if_pos hband]
      ring
    rw [fbOf, if_pos hband, hdiv]
    exact toNat_fb (by linarith) (by linarith)
  · rw [fbOf, if_neg hband, band, if_neg hband]
    exact toNat_fb hlow (by linarith)

/-- The byte of register 0x75. -/
def bandSelect (f : ℚ) : UInt8 := (fbOf f).toUInt8 ||| (if f ≥ 480 then 1 else 0) <<< (5 : UInt8)

/-- The registers that `rf_set_freq` writes. -/
def freqRegs (regs : RegFile) (select : UInt8) (fc : UInt16) : RegFile :=
  let regs := Function.update regs 0x73 0
  let regs := Function.update regs 0x74 0
  let regs := Function.update regs 0x75 select
  let regs := Function.update regs 0x76 (lowByte fc)
  let regs := Function.update regs 0x77 (highByte fc)
  Function.update regs 0x79 0

/-- Below the upper band, `hbsel` adds no bit. -/
theorem or_zero_shift (x : UInt8) : x ||| 0 <<< (5 : UInt8) = x := by
  rw [show (0 : UInt8) <<< (5 : UInt8) = 0 by decide, UInt8.or_zero]

theorem rfSetFreq_of_mem (regs : RegFile) {f : ℚ} (hlow : 240 ≤ f) (hhigh : f ≤ 960) :
    rfSetFreq regs f = freqRegs regs (bandSelect f) (fcOf f) := by
  have hrange : ¬ (CFloat.lt f 240 ∨ CFloat.gt f 960) := by
    simp only [CFloat.lt, CFloat.gt, decide_eq_true_eq, not_or, not_lt]
    exact ⟨hlow, hhigh⟩
  have hpos : 0 ≤ f / band f := by
    rw [band]
    split <;> positivity
  have hfract := sub_floor_eq_fract hpos (toNat_fbOf hlow hhigh).1
  have hnext : (0x76 : UInt8) + 1 = 0x77 := by decide
  rw [rfSetFreq, if_neg hrange, freqRegs, bandSelect, fcOf, ← hfract, fbOf, band]
  simp (disch := decide) only [rfSpiWrite_of_lt, rfSpiWritem_toBuf, hnext, CFloat.ge, CFloat.map,
    CFloat.toUint16, decide_eq_true_eq]
  by_cases hband : f ≥ 480
  · have hwidth : (10 : ℚ) * ((1 : UInt8).toNat + 1) = 20 := by
      rw [show (1 : UInt8).toNat = 1 from rfl]
      norm_num
    have hone : (1 : UInt8) ≠ 0 := by decide
    simp only [hband, if_true, hone, ne_eq, not_false_eq_true, hwidth]
  · have hwidth : (10 : ℚ) * ((0 : UInt8).toNat + 1) = 10 := by norm_num
    simp only [hband, if_false, ne_eq, not_true_eq_false, hwidth]

theorem rfSetFreq_of_not_mem (regs : RegFile) {f : ℚ} (h : f < 240 ∨ f > 960) :
    rfSetFreq regs f = regs := by
  have hrange : CFloat.lt f 240 ∨ CFloat.gt f 960 := by
    simpa only [CFloat.lt, CFloat.gt, decide_eq_true_eq] using h
  rw [rfSetFreq, if_pos hrange]

/-- An infinity does not pass the test. -/
theorem rfSetFreq_inf (regs : RegFile) (negative : Bool) :
    rfSetFreq regs (.inf negative) = regs := by
  cases negative with
  | false => rfl
  | true => rfl

/-- A NaN passes it. -/
theorem rfSetFreq_nan (regs : RegFile) (conv : Nat → UInt16) :
    rfSetFreq regs (.nan conv) = freqRegs regs ((conv 0 - 240) / 10).toUInt8 (conv 1) := by
  have hrange : ¬ (CFloat.lt (.nan conv) 240 ∨ CFloat.gt (.nan conv) 960) := by
    simp [CFloat.lt, CFloat.gt]
  have hnext : (0x76 : UInt8) + 1 = 0x77 := by decide
  rw [rfSetFreq, if_neg hrange, freqRegs]
  simp (disch := decide) only [rfSpiWrite_of_lt, rfSpiWritem_toBuf, hnext, CFloat.ge, CFloat.map,
    CFloat.toUint16, Bool.false_eq_true, if_false, ne_eq, not_true_eq_false, or_zero_shift]

/-! ### The carrier in the registers -/

/-- `fb[4:0]`. -/
def fbBits (regs : RegFile) : Nat := (regs 0x75 &&& 0x1f).toNat

/-- `hbsel`. -/
def hbselBit (regs : RegFile) : Nat := (regs 0x75 >>> (5 : UInt8) &&& 1).toNat

/-- `fc[15:0]`, with the high byte in the first register. -/
def fcBits (regs : RegFile) : Nat := 256 * (regs 0x76).toNat + (regs 0x77).toNat

/-- The frequency that the registers stand for, in MHz. -/
def carrier (regs : RegFile) : ℚ :=
  10 * (hbselBit regs + 1) * (fbBits regs + 24 + fcBits regs / 64000)

/-- The registers stand for a frequency within a step below `f`. -/
structure TunedTo (regs : RegFile) (f : ℚ) : Prop where
  bands : fbBits regs ≤ 24
  fraction : fcBits regs < 64000
  below : carrier regs ≤ f
  within : f < carrier regs + 10 * (hbselBit regs + 1) / 64000

/-- What `rf_set_freq` should do: tune to a frequency in the range, and nothing for another one. -/
structure FreqLaw (regs : RegFile) (f : ℚ) : Prop where
  tuned : 240 ≤ f → f ≤ 960 → TunedTo (rfSetFreq regs f) f
  outside : f < 240 ∨ 960 < f → rfSetFreq regs f = regs

/-- The fraction of the band has two equal bytes. -/
def EqualBytes (f : ℚ) : Prop :=
  ∃ k : Nat, 257 * k ≤ Int.fract (f / band f) * 64000 ∧ Int.fract (f / band f) * 64000 < 257 * k + 1

theorem bandSelect_low : ∀ fb < 25,
    ((UInt8.ofNat fb ||| 0 <<< (5 : UInt8)) &&& 0x1f).toNat = fb ∧
    ((UInt8.ofNat fb ||| 0 <<< (5 : UInt8)) >>> (5 : UInt8) &&& 1).toNat = 0 := by decide

theorem bandSelect_high : ∀ fb < 25,
    ((UInt8.ofNat fb ||| 1 <<< (5 : UInt8)) &&& 0x1f).toNat = fb ∧
    ((UInt8.ofNat fb ||| 1 <<< (5 : UInt8)) >>> (5 : UInt8) &&& 1).toNat = 1 := by decide

section InRange

variable (regs : RegFile) {f : ℚ} (hlow : 240 ≤ f) (hhigh : f ≤ 960)
include hlow hhigh

theorem rfSetFreq_bands :
    fbBits (rfSetFreq regs f) = (fbOf f).toNat ∧
      10 * ((hbselBit (rfSetFreq regs f) : ℚ) + 1) = band f := by
  have hreg : rfSetFreq regs f 0x75 = bandSelect f := by
    rw [rfSetFreq_of_mem regs hlow hhigh]
    rfl
  have hfb : (fbOf f).toUInt8 = UInt8.ofNat (fbOf f).toNat := rfl
  have hle := (toNat_fbOf hlow hhigh).2
  rw [fbBits, hbselBit, hreg, bandSelect, hfb, band]
  by_cases hband : f ≥ 480
  · obtain ⟨hbits, hbit⟩ := bandSelect_high (fbOf f).toNat (by omega)
    simp only [hband, if_true]
    refine ⟨hbits, ?_⟩
    rw [hbit]
    norm_num
  · obtain ⟨hbits, hbit⟩ := bandSelect_low (fbOf f).toNat (by omega)
    simp only [hband, if_false]
    refine ⟨hbits, ?_⟩
    rw [hbit]
    norm_num

theorem rfSetFreq_fraction :
    fcBits (rfSetFreq regs f) = 256 * ((fcOf f).toNat % 256) + (fcOf f).toNat / 256 := by
  have hreg : rfSetFreq regs f 0x76 = lowByte (fcOf f) := by
    rw [rfSetFreq_of_mem regs hlow hhigh]
    rfl
  have hreg' : rfSetFreq regs f 0x77 = highByte (fcOf f) := by
    rw [rfSetFreq_of_mem regs hlow hhigh]
    rfl
  rw [fcBits, hreg, hreg', toNat_lowByte, toNat_highByte]

/-- The carrier is within a step below the frequency for one value of the 16 bits only. -/
theorem carrier_iff :
    (carrier (rfSetFreq regs f) ≤ f ∧
        f < carrier (rfSetFreq regs f) + 10 * (hbselBit (rfSetFreq regs f) + 1) / 64000) ↔
      fcBits (rfSetFreq regs f) = (fcOf f).toNat := by
  obtain ⟨hfb, hwidth⟩ := rfSetFreq_bands regs hlow hhigh
  have hband : 0 < band f := by
    rw [band]
    split <;> norm_num
  have hpos : 0 ≤ f / band f := div_nonneg (by linarith) hband.le
  have hfract := sub_floor_eq_fract hpos (toNat_fbOf hlow hhigh).1
  have hnonneg : 0 ≤ Int.fract (f / band f) * 64000 :=
    mul_nonneg (Int.fract_nonneg _) (by norm_num)
  rw [carrier, hfb, hwidth]
  generalize fcBits (rfSetFreq regs f) = fc
  have hstep : 0 < band f / 64000 := by positivity
  -- both differences, in steps
  have hbelow : f - band f * ((fbOf f).toNat + 24 + fc / 64000) =
      band f / 64000 * (Int.fract (f / band f) * 64000 - fc) := by
    rw [← hfract]
    field_simp
    ring
  have habove : band f * ((fbOf f).toNat + 24 + fc / 64000) + band f / 64000 - f =
      band f / 64000 * (fc + 1 - Int.fract (f / band f) * 64000) := by
    rw [← hfract]
    field_simp
    ring
  rw [(toNat_fcOf f).1, eq_comm (a := fc), Nat.floor_eq_iff hnonneg, ← sub_nonneg, hbelow,
    mul_nonneg_iff_of_pos_left hstep, sub_nonneg, ← sub_pos, habove, mul_pos_iff_of_pos_left hstep,
    sub_pos]

end InRange

/-- For every frequency and register file: `rf_set_freq` tunes to within a step below a frequency in
    its range if and only if the fraction of the band has two equal bytes, and it writes nothing for
    the others. -/
theorem freqLaw_iff (regs : RegFile) (f : ℚ) :
    FreqLaw regs f ↔ (240 ≤ f → f ≤ 960 → EqualBytes f) := by
  have hequal : EqualBytes f ↔ ∃ k, (fcOf f).toNat = 257 * k := by
    have hnonneg : 0 ≤ Int.fract (f / band f) * 64000 :=
      mul_nonneg (Int.fract_nonneg _) (by norm_num)
    rw [(toNat_fcOf f).1, EqualBytes]
    refine exists_congr fun k => ?_
    rw [Nat.floor_eq_iff hnonneg]
    push_cast
    rfl
  have hlt := (toNat_fcOf f).2
  constructor
  · intro hlaw hlow hhigh
    have htuned := hlaw.tuned hlow hhigh
    have hfc := (carrier_iff regs hlow hhigh).mp ⟨htuned.below, htuned.within⟩
    rw [rfSetFreq_fraction regs hlow hhigh, swapped_eq_iff (by omega)] at hfc
    exact hequal.mpr hfc
  · intro hok
    refine ⟨fun hlow hhigh => ?_, rfSetFreq_of_not_mem regs⟩
    have hfc : fcBits (rfSetFreq regs f) = (fcOf f).toNat := by
      rw [rfSetFreq_fraction regs hlow hhigh, swapped_eq_iff (by omega)]
      exact hequal.mp (hok hlow hhigh)
    obtain ⟨hbelow, hwithin⟩ := (carrier_iff regs hlow hhigh).mpr hfc
    refine ⟨?_, ?_, hbelow, hwithin⟩
    · rw [(rfSetFreq_bands regs hlow hhigh).1]
      exact (toNat_fbOf hlow hhigh).2
    · rw [hfc]
      exact hlt

/-- At 315 MHz the registers are 0x76 = 0x00 and 0x77 = 0x7d, which is 310 MHz and a bit. -/
theorem freq315_fails : ¬ FreqLaw (fun _ => 0) 315 := by
  intro hlaw
  exact absurd (hlaw.tuned (by norm_num) (by norm_num)).within (by decide +kernel)

/-! ### Data rate -/

/-- `dr[15:0]`, with the high byte in the first register. -/
def drBits (regs : RegFile) : Nat := 256 * (regs 0x6e).toNat + (regs 0x6f).toNat

/-- The scale flag. -/
def scaleBit (regs : RegFile) : Nat := (regs 0x70 >>> (5 : UInt8) &&& 1).toNat

/-- One step of the data rate, in kbps. -/
def rateStep (regs : RegFile) : ℚ := 1000 / 2 ^ (16 + 5 * scaleBit regs)

/-- The scale that `rf_set_tx_rate` takes. -/
def scaleOf (rateKbps : UInt16) : UInt8 := if rateKbps ≤ 31 then 1 else 0

/-- The registers stand for a rate within a step below `rateKbps`. -/
structure RateSet (regs : RegFile) (rateKbps : UInt16) : Prop where
  below : drBits regs * rateStep regs ≤ rateKbps.toNat
  within : rateKbps.toNat < drBits regs * rateStep regs + rateStep regs

/-- What `rf_set_tx_rate` should do: program a rate up to 1000 kbps, converting a number that fits
    and keeping the other bits of the scale register, and nothing for a rate above. -/
structure RateLaw (regs : RegFile) (rateKbps : UInt16) : Prop where
  rate : 1 ≤ rateKbps → rateKbps ≤ 1000 → RateSet (rfSetTxRate regs rateKbps) rateKbps
  fits : 1 ≤ rateKbps → rateKbps ≤ 1000 → ⌊drArg (scaleOf rateKbps) rateKbps⌋₊ < 65536
  others : 1 ≤ rateKbps → rateKbps ≤ 1000 →
    rfSetTxRate regs rateKbps 0x70 &&& ~~~0x20 = regs 0x70 &&& ~~~0x20
  outside : 1000 < rateKbps → rfSetTxRate regs rateKbps = regs

/-- The registers that a rate in the range writes. -/
def rateRegs (regs : RegFile) (rateKbps : UInt16) : RegFile :=
  let dr := toUint16 (drArg (scaleOf rateKbps) rateKbps)
  let regs := Function.update regs 0x6e (lowByte dr)
  let regs := Function.update regs 0x6f (highByte dr)
  Function.update regs 0x70
    (regs 0x70 &&& ~~~((1 : UInt8) <<< (5 : UInt8)) ||| scaleOf rateKbps <<< (5 : UInt8))

theorem rfSetTxRate_of_le (regs : RegFile) {rateKbps : UInt16} (h : rateKbps ≤ 1000) :
    rfSetTxRate regs rateKbps = rateRegs regs rateKbps := by
  have hnext : (0x6e : UInt8) + 1 = 0x6f := by decide
  rw [rfSetTxRate, if_neg (UInt16.not_lt.mpr h), rateRegs, scaleOf]
  simp (disch := decide) only [rfSpiWrite_of_lt, rfSpiWritem_toBuf, rfSpiRead_of_lt, hnext]

theorem rfSetTxRate_of_gt (regs : RegFile) {rateKbps : UInt16} (h : 1000 < rateKbps) :
    rfSetTxRate regs rateKbps = regs := by
  rw [rfSetTxRate, if_pos h]

/-- The rate in steps, rounded down. -/
def drFloor (rate : Nat) : Nat := rate * 2 ^ (16 + 5 * if rate ≤ 31 then 1 else 0) / 1000

theorem toNat_scaleOf (rateKbps : UInt16) :
    (scaleOf rateKbps).toNat = if rateKbps.toNat ≤ 31 then 1 else 0 := by
  have hle : rateKbps ≤ 31 ↔ rateKbps.toNat ≤ 31 := UInt16.le_iff_toNat_le
  by_cases hscale : rateKbps ≤ 31
  · rw [scaleOf, if_pos hscale, if_pos (hle.mp hscale)]
    rfl
  · rw [scaleOf, if_neg hscale, if_neg (mt hle.mpr hscale)]
    rfl

theorem drArg_eq (rateKbps : UInt16) :
    drArg (scaleOf rateKbps) rateKbps =
      ((rateKbps.toNat * 2 ^ (16 + 5 * (scaleOf rateKbps).toNat) : Nat) : ℚ) / (1000 : Nat) := by
  have hone : (1 : UInt8).toNat = 1 := rfl
  have hzero : (0 : UInt8).toNat = 0 := rfl
  by_cases hscale : rateKbps ≤ 31
  · rw [drArg, scaleOf, if_pos hscale, if_pos (by decide), hone]
    push_cast
    ring
  · rw [drArg, scaleOf, if_neg hscale, if_neg (by decide), hzero]
    push_cast
    ring

theorem floor_drArg (rateKbps : UInt16) :
    ⌊drArg (scaleOf rateKbps) rateKbps⌋₊ = drFloor rateKbps.toNat := by
  rw [drArg_eq, Nat.floor_div_eq_div, drFloor, toNat_scaleOf]

/-- The rates whose steps fit 16 bits with two equal bytes. -/
theorem drFloor_swapped_iff : ∀ rate < 1001, 1 ≤ rate →
    (drFloor rate < 65536 ∧
        256 * (drFloor rate % 256) + drFloor rate / 256 = drFloor rate ↔
      rate ∈ [25, 200, 400, 600, 800]) := by
  have hswapped : ((List.range 1001).filter fun rate => 1 ≤ rate && drFloor rate < 65536 &&
      256 * (drFloor rate % 256) + drFloor rate / 256 == drFloor rate) =
      [25, 200, 400, 600, 800] := by
    decide +kernel
  intro rate hlt hpos
  rw [← hswapped]
  simp [hlt, hpos]

theorem scaleReg_bits : ∀ old < 256, ∀ scale < 2,
    ((UInt8.ofNat old &&& ~~~((1 : UInt8) <<< (5 : UInt8)) |||
      UInt8.ofNat scale <<< (5 : UInt8)) >>> (5 : UInt8) &&& 1).toNat = scale ∧
    (UInt8.ofNat old &&& ~~~((1 : UInt8) <<< (5 : UInt8)) |||
      UInt8.ofNat scale <<< (5 : UInt8)) &&& ~~~0x20 = UInt8.ofNat old &&& ~~~0x20 := by
  decide +kernel

section InRange

variable (regs : RegFile) {rateKbps : UInt16} (h : rateKbps ≤ 1000)
include h

theorem rfSetTxRate_scale :
    scaleBit (rfSetTxRate regs rateKbps) = (scaleOf rateKbps).toNat ∧
      rfSetTxRate regs rateKbps 0x70 &&& ~~~0x20 = regs 0x70 &&& ~~~0x20 := by
  have hreg : rfSetTxRate regs rateKbps 0x70 =
      regs 0x70 &&& ~~~((1 : UInt8) <<< (5 : UInt8)) ||| scaleOf rateKbps <<< (5 : UInt8) := by
    rw [rfSetTxRate_of_le regs h]
    rfl
  have hscale : (scaleOf rateKbps).toNat < 2 := by
    rw [scaleOf]
    split <;> decide
  have hbits := scaleReg_bits (regs 0x70).toNat (UInt8.toNat_lt _) (scaleOf rateKbps).toNat hscale
  rw [UInt8.ofNat_toNat, UInt8.ofNat_toNat] at hbits
  rw [scaleBit, hreg]
  exact hbits

/-- The registers stand for a rate within a step below for one value of the 16 bits only. -/
theorem rateSet_iff :
    RateSet (rfSetTxRate regs rateKbps) rateKbps ↔
      drBits (rfSetTxRate regs rateKbps) = drFloor rateKbps.toNat := by
  have hscale := (rfSetTxRate_scale regs h).1
  have hpos : 0 < rateStep (rfSetTxRate regs rateKbps) := by
    rw [rateStep]
    positivity
  have harg : (rateKbps.toNat : ℚ) =
      drArg (scaleOf rateKbps) rateKbps * rateStep (rfSetTxRate regs rateKbps) := by
    rw [rateStep, hscale, drArg_eq]
    push_cast
    field_simp
  have hnonneg : 0 ≤ drArg (scaleOf rateKbps) rateKbps := by
    rw [drArg_eq]
    positivity
  have hfloor : drBits (rfSetTxRate regs rateKbps) = drFloor rateKbps.toNat ↔ _ :=
    eq_comm.trans ((floor_drArg rateKbps) ▸ Nat.floor_eq_iff hnonneg)
  rw [hfloor]
  constructor
  · rintro ⟨hbelow, hwithin⟩
    rw [harg] at hbelow hwithin
    rw [← add_one_mul] at hwithin
    exact ⟨le_of_mul_le_mul_right hbelow hpos, lt_of_mul_lt_mul_right hwithin hpos.le⟩
  · rintro ⟨hbelow, hwithin⟩
    refine ⟨?_, ?_⟩
    · rw [harg]
      exact mul_le_mul_of_nonneg_right hbelow hpos.le
    · rw [harg, ← add_one_mul]
      exact mul_lt_mul_of_pos_right hwithin hpos

theorem rfSetTxRate_rate (hfits : drFloor rateKbps.toNat < 65536) :
    drBits (rfSetTxRate regs rateKbps) =
      256 * (drFloor rateKbps.toNat % 256) + drFloor rateKbps.toNat / 256 := by
  have hdr : (toUint16 (drArg (scaleOf rateKbps) rateKbps)).toNat = drFloor rateKbps.toNat := by
    rw [toNat_toUint16 (floor_drArg rateKbps ▸ hfits), floor_drArg]
  have hreg : rfSetTxRate regs rateKbps 0x6e =
      lowByte (toUint16 (drArg (scaleOf rateKbps) rateKbps)) := by
    rw [rfSetTxRate_of_le regs h]
    rfl
  have hreg' : rfSetTxRate regs rateKbps 0x6f =
      highByte (toUint16 (drArg (scaleOf rateKbps) rateKbps)) := by
    rw [rfSetTxRate_of_le regs h]
    rfl
  rw [drBits, hreg, hreg', toNat_lowByte, toNat_highByte, hdr]

end InRange

/-- For every rate and register file: `rf_set_tx_rate` programs a rate of its range as it should if
    and only if it is one of the five whose number of steps has two equal bytes; at 1000 kbps the
    number does not fit. -/
theorem rateLaw_iff (regs : RegFile) (rateKbps : UInt16) :
    RateLaw regs rateKbps ↔
      (1 ≤ rateKbps → rateKbps ≤ 1000 → rateKbps.toNat ∈ [25, 200, 400, 600, 800]) := by
  have hmem : 1 ≤ rateKbps → rateKbps ≤ 1000 →
      (drFloor rateKbps.toNat < 65536 ∧
          256 * (drFloor rateKbps.toNat % 256) + drFloor rateKbps.toNat / 256 =
            drFloor rateKbps.toNat ↔
        rateKbps.toNat ∈ [25, 200, 400, 600, 800]) := fun hlow hhigh =>
    drFloor_swapped_iff rateKbps.toNat (Nat.lt_succ_of_le (UInt16.le_iff_toNat_le.mp hhigh))
      (UInt16.le_iff_toNat_le.mp hlow)
  constructor
  · intro hlaw hlow hhigh
    have hfits : drFloor rateKbps.toNat < 65536 := floor_drArg rateKbps ▸ hlaw.fits hlow hhigh
    have hrate := (rateSet_iff regs hhigh).mp (hlaw.rate hlow hhigh)
    rw [rfSetTxRate_rate regs hhigh hfits] at hrate
    exact (hmem hlow hhigh).mp ⟨hfits, hrate⟩
  · intro hok
    refine ⟨fun hlow hhigh => ?_, fun hlow hhigh => ?_, fun _ hhigh => ?_, rfSetTxRate_of_gt regs⟩
    · obtain ⟨hfits, hswap⟩ := (hmem hlow hhigh).mpr (hok hlow hhigh)
      rw [rateSet_iff regs hhigh, rfSetTxRate_rate regs hhigh hfits]
      exact hswap
    · rw [floor_drArg]
      exact ((hmem hlow hhigh).mpr (hok hlow hhigh)).1
    · exact (rfSetTxRate_scale regs hhigh).2

/-- For 64 kbps the registers are 0x6e = 0x62 and 0x6f = 0x10. -/
theorem rate64_fails : ¬ RateLaw (fun _ => 0) 64 := by
  intro hlaw
  exact absurd (hlaw.rate (by decide) (by decide)).below (by decide +kernel)

end RfPirate
