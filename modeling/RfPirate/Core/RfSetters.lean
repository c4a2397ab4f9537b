/-
Module: RfPirate.Core.RfSetters
Layer: Core
Purpose: The functions of `si4432.cpp` that find the radio and set frequency, modulation, data rate
  and power, over the register file of the radio. Arithmetic in `float` is exact here, over the
  rationals with infinities and NaN; `uint16_t` goes to the radio low byte first.
Main exports: rfSpiWrite, rfSpiRead, rfSpiWrites, rfProbe, CFloat, rfSetFreq, rfSetModSrc,
  rfSetTxRate, rfSetPower, SetCall, SetCall.apply, setStep
-/
import RfPirate.Core.Si4432
import Mathlib.Data.Rat.Floor

namespace RfPirate

open Lib

/-- `rf_spi_write`. -/
def rfSpiWrite (regs : RegFile) (addr data : UInt8) : RegFile := rfSpiWritem regs addr [data]

/-- `rf_spi_read`. -/
def rfSpiRead (regs : RegFile) (addr : UInt8) : UInt8 := (rfSpiReadm regs addr 1).headD 0

/-- Calls of `rf_spi_write` in a row. -/
def rfSpiWrites (regs : RegFile) (writes : List (UInt8 × UInt8)) : RegFile :=
  writes.foldl (fun regs (addr, data) => rfSpiWrite regs addr data) regs

/-- `rf_probe`: the value it returns, `rf_initialized`, and the registers. The pins and the SPI port
    it sets up are not modelled, and the wait for the interrupt after the reset ends. -/
def rfProbe (rfInitialized : Bool) (regs : RegFile) : UInt8 × Bool × RegFile :=
  if rfInitialized then (1, true, regs)
  else
    -- force software reset, then set up the gpios
    let regs := rfSpiWrites regs [(7, 0x80), (0x0b, 0x92), (0x0c, 0x95), (0x0d, 0x14)]
    -- type and version of the silicon
    if rfSpiRead regs 0 ≠ 8 then (0, false, regs)
    else if rfSpiRead regs 1 ≠ 6 then (0, false, regs)
    else (1, true, regs)

/-- The conversion of a number that is not negative to `uint16_t`. A whole part that does not fit
    loses its upper bits. -/
def toUint16 (q : ℚ) : UInt16 := UInt16.ofNat ⌊q⌋₊

/-- `float` with exact arithmetic. What a NaN is when it is converted to `uint16_t` is not
    specified: `conv k` is the result of conversion `k` of a call. -/
inductive CFloat where
  | num (q : ℚ)
  | inf (negative : Bool)
  | nan (conv : Nat → UInt16)

namespace CFloat

instance : Coe ℚ CFloat := ⟨num⟩

/-- `<` against a constant. With a NaN every comparison is false. -/
def lt : CFloat → ℚ → Bool
  | num q, c => q < c
  | inf negative, _ => negative
  | nan _, _ => false

def gt : CFloat → ℚ → Bool
  | num q, c => q > c
  | inf negative, _ => !negative
  | nan _, _ => false

def ge : CFloat → ℚ → Bool
  | num q, c => q ≥ c
  | inf negative, _ => !negative
  | nan _, _ => false

/-- Arithmetic with constants whose slope is positive: it keeps an infinity and a NaN. -/
def map (f : ℚ → ℚ) : CFloat → CFloat
  | num q => num (f q)
  | inf negative => inf negative
  | nan conv => nan conv

/-- Conversion `k` of a call to `uint16_t`. -/
def toUint16 (k : Nat) : CFloat → UInt16
  | num q => RfPirate.toUint16 q
  -- no infinity passes the test before
  | inf _ => 0
  | nan conv => conv k

end CFloat

/-! ### Generic RF -/

/-- `rf_set_freq`. -/
def rfSetFreq (regs : RegFile) (freqMhz : CFloat) : RegFile :=
  if freqMhz.lt 240 ∨ freqMhz.gt 960 then regs
  else
    let hbsel : UInt8 := if freqMhz.ge 480 then 1 else 0
    let fb := if hbsel ≠ 0 then (freqMhz.map fun q => q / 2).toUint16 0 else freqMhz.toUint16 0
    let fb := (fb - 240) / 10
    -- clear frequency offset
    let regs := rfSpiWrite regs 0x73 0
    let regs := rfSpiWrite regs 0x74 0
    let regs := rfSpiWrite regs 0x75 (fb.toUInt8 ||| hbsel <<< (5 : UInt8))
    let fc := (freqMhz.map fun q =>
      (q / (10 * (hbsel.toNat + 1)) - fb.toNat - 24) * 64000).toUint16 1
    let regs := rfSpiWritem regs 0x76 (toBuf fc)
    -- no freq hopping
    rfSpiWrite regs 0x79 0

def modMax : UInt8 := 4
def srcMax : UInt8 := 4

/-- `rf_set_mod_src`. The register with the fields cleared is not used: `=` stands where the others
    have `|=`. -/
def rfSetModSrc (regs : RegFile) (mod src : UInt8) : RegFile :=
  if mod ≥ modMax ∨ src ≥ srcMax then regs
  else
    let _tmp := rfSpiRead regs 0x71 &&& ~~~0x33
    let tmp := src <<< (4 : UInt8) ||| mod
    rfSpiWrite regs 0x71 tmp

/-! ### RF TX control -/

/-- The number that becomes the data rate registers. -/
def drArg (scale : UInt8) (rateKbps : UInt16) : ℚ :=
  if scale ≠ 0 then rateKbps.toNat * 2097.152 else rateKbps.toNat * 65.536

/-- `rf_set_tx_rate`. -/
def rfSetTxRate (regs : RegFile) (rateKbps : UInt16) : RegFile :=
  if rateKbps > 1000 then regs
  else
    let scale : UInt8 := if rateKbps ≤ 31 then 1 else 0
    let dr := toUint16 (drArg scale rateKbps)
    let regs := rfSpiWritem regs 0x6e (toBuf dr)
    let tmp := rfSpiRead regs 0x70
    let tmp := tmp &&& ~~~((1 : UInt8) <<< (5 : UInt8))
    let tmp := tmp ||| scale <<< (5 : UInt8)
    rfSpiWrite regs 0x70 tmp

def rf20Dbm : UInt8 := 7
def rfMaxDbm : UInt8 := 8

/-- `rf_set_power`. -/
def rfSetPower (regs : RegFile) (pwr : UInt8) : RegFile :=
  if pwr ≥ rfMaxDbm then regs else rfSpiWrite regs 0x6d pwr

/-! ### Calls of the setters -/

inductive SetCall where
  | setFreq (freqMhz : CFloat)
  | setModSrc (mod src : UInt8)
  | setTxRate (rateKbps : UInt16)
  | setPower (pwr : UInt8)

def SetCall.apply (regs : RegFile) : SetCall → RegFile
  | .setFreq freqMhz => rfSetFreq regs freqMhz
  | .setModSrc mod src => rfSetModSrc regs mod src
  | .setTxRate rateKbps => rfSetTxRate regs rateKbps
  | .setPower pwr => rfSetPower regs pwr

def setStep : Machine.Step RegFile SetCall Unit := fun regs call => some (call.apply regs, [])

end RfPirate
