/-
Module: RfPirate.Core.RfApps
Layer: Core
Purpose: The two applications, `rf_test.cpp` and `rf_debug.cpp`: their event handlers, what their
  menu entries execute, and the register dump. The context that the start event brings is the one of
  `Menu.cpp`, whose display and menu are those of the world.
Main exports: BattIcon, Vars, World.draw, World.setRest, print, rfEventNotify, unmodCarrier315,
  unmodCarrier434, unmodCarrierOff, keeloq315Tx, dumpRfRegs, rfDebugNotify
-/
import RfPirate.Core.Menu
import RfPirate.Core.Panel
import RfPirate.Core.RfSetters
import RfPirate.Core.UsbSerial

namespace RfPirate

open Lib Lib.CString

/-! ### State -/

/-- What `batt_icon` can point to. -/
inductive BattIcon where
  | batt0p0
  | batt0p25
  | batt0p5
  | batt0p75
  | batt1p0
deriving DecidableEq, Repr

/-- The rest of the world: the radio, the variables of the applications, of `ui.cpp` and of the
    display driver, two output pins, the serial object, and whether control has been given to the
    bootloader. -/
structure Vars where
  regs : RegFile
  rfInitialized : Bool
  regAddr : UInt8
  battIcon : BattIcon
  icon : Icons
  led : Bool
  pshold : Bool
  ser : UsbSerial
  bootloader : Bool

namespace World

variable {σ : Type*}

/-- Calls on the display. -/
def draw (w : World σ) (f : Ssd1306 → Ssd1306) : World σ := { w with oled := f w.oled }

/-- Writes to the rest of the world. -/
def setRest (w : World σ) (f : σ → σ) : World σ := { w with rest := f w.rest }

/-- Writes to the registers of the radio. -/
def setRegs (w : World Vars) (f : RegFile → RegFile) : World Vars :=
  w.setRest fun v => { v with regs := f v.regs }

/-- The effect of `rf_probe`. -/
def probe (w : World Vars) : World Vars :=
  w.setRest fun v =>
    let r := rfProbe v.rfInitialized v.regs
    { v with rfInitialized := r.2.1, regs := r.2.2 }

end World

/-! ### `rf_test.cpp` -/

/-- `print`. Of the text that the format makes of the data, 20 characters fit in `str`. -/
def print (line : Nat) (fmt : UInt8 → List UInt8) (data : UInt8) (d : Ssd1306) : Ssd1306 :=
  let str := (fmt data).take 20
  drawstring (clearline d line) line 0 str false

/-- `rf_event_notify`. The event is a byte, and the last label does not fit in one. -/
def rfEventNotify (event : UInt8) (_data : UInt16) (w : World Vars) : UInt8 × World Vars :=
  if event = eventAppStart then
    let w' := w.probe
    if (rfProbe w.rest.rfInitialized w.rest.regs).1 = 0 then
      (1, w'.draw (print 6 (fun _ => ascii "RF Init failed") 0))
    else (1, w')
  else if event = eventAppStop then (1, w.setRest fun v => { v with led := true })
  -- ignore these events
  else if event = eventVbatt ∨ event = eventKeypress then (0, w)
  -- RF events
  else if event = eventIsrFifoRxhi then (0, w.draw (print 7 (fun _ => ascii "RX fifo hi") 0))
  else if event.toUInt16 = isrSyncDet then (0, w.draw (print 7 (fun _ => ascii "SYNC det") 0))
  else if event.toUInt16 = isrValPrmDet then
    (0, w.draw (print 7 (fun _ => ascii "PREAMBLE det") 0))
  else if event.toUInt16 = isrPktRcvd then
    (0, w.draw (print 7 (fun _ => ascii "PKT received") 0))
  else
    (0, (w.setRest fun v => { v with led := false }).draw
      (print 6 (fun c => ascii "Event = " ++ hex02 97 c) event))

/-- The two functions that turn an unmodulated carrier on. -/
def unmodCarrier (freqMhz : ℚ) (w : World Vars) : World Vars :=
  let w := w.setRegs fun regs => rfSpiWrites (rfSetFreq regs freqMhz) [(0x71, 0), (0x7, 0x9)]
  w.draw (print 6 (fun c => ascii "[7] = " ++ hex02 65 c) (rfSpiRead w.rest.regs 7))

def unmodCarrier315 (w : World Vars) : World Vars := unmodCarrier 315 w

def unmodCarrier434 (w : World Vars) : World Vars := unmodCarrier 434 w

def unmodCarrierOff (w : World Vars) : World Vars :=
  w.setRegs fun regs => rfSpiWrite regs 0x7 0x1

/-- `keeloq_315_tx`. What goes to the FIFO is no register. The wait ends when the radio has sent the
    packet, which clears bit 3. -/
def keeloq315Tx (w : World Vars) : World Vars :=
  let w := w.setRegs fun regs =>
    let regs := rfSpiWrites regs
      [(0x32, 0), (0x33, 0xa), (0x34, 0x5), (0x36, 0xff), (0x37, 0x00), (0x3e, 32), (0x6e, 0x10),
        (0x6f, 0x62), (0x58, 0x80)]
    let regs := rfSetPower regs rf20Dbm
    let regs := rfSpiWrites regs
      [(0x70, 0x00), (0x71, 0x21), (0x75, 0x47), (0x76, 0x7d), (0x77, 0x00), (0x7, 0x9)]
    Function.update regs 7 (regs 7 &&& ~~~0x8)
  let w := w.draw (print 6 (fun _ => ascii "TX Done") 0)
  w.draw (print 6 (fun _ => ascii "       ") 0)

/-! ### `rf_debug.cpp` -/

def regPerLine : UInt8 := 6

/-- The text of a line of the dump, `"%02x: %02x %02x %02x %02x %02x %02x"`, cut to `str`. -/
def dumpText (start : UInt8) (buf : Nat → UInt8) : List UInt8 :=
  let values := (List.range 6).flatMap fun i => ascii " " ++ hex02 97 (buf i)
  (hex02 97 start ++ ascii ":" ++ values).take 21

/-- The buffer of a line, cleared and read into. -/
def dumpBuf (regs : RegFile) (start : UInt8) (i : Nat) : UInt8 :=
  (rfSpiReadm regs start (if start < 126 then 6 else 2)).getD i 0

/-- The `for` loop of `dump_rf_regs` from `line` on, with `n` lines to go. -/
def dumpLoop (regs : RegFile) : Nat → Nat → UInt8 → Ssd1306 → Ssd1306
  | 0, _, _, d => d
  | n + 1, line, start, d =>
      dumpLoop regs n (line + 1) (start + regPerLine)
        (drawstring d line 0 (dumpText start (dumpBuf regs start)) false)

/-- `dump_rf_regs`. -/
def dumpRfRegs (regs : RegFile) (start : UInt8) (d : Ssd1306) : Ssd1306 :=
  dumpLoop regs 5 1 start ([1, 2, 3, 4, 5].foldl clearline d)

/-- `dump_rf_regs(reg_addr)`. -/
def World.dump (w : World Vars) : World Vars := w.draw (dumpRfRegs w.rest.regs w.rest.regAddr)

/-- `rf_debug_notify`. The variable it returns is not assigned on the way of `KEY_UP` and of
    `KEY_DOWN`; `rv` is what it holds then. -/
def rfDebugNotify (rv : UInt8) (event : UInt8) (data : UInt16) (w : World Vars) :
    UInt8 × World Vars :=
  if event = eventAppStart then
    let w := enable w false
    (1, ((w.setRest fun v => { v with regAddr := 0 }).probe).dump)
  else if event = eventAppStop then (1, enable w true)
  else if event = eventKeypress then
    -- trap all keypress events except left
    if data = keyUp.toUInt16 then
      (rv, (w.setRest fun v =>
        if v.regAddr ≥ 6 then { v with regAddr := v.regAddr - regPerLine } else v).dump)
    else if data = keyDown.toUInt16 then
      (rv, (w.setRest fun v =>
        if v.regAddr ≤ 126 - (5 * 6) then { v with regAddr := v.regAddr + regPerLine }
        else v).dump)
    else if data = keyLeft.toUInt16 then (0, w)
    else (1, w)
  else (0, w)

end RfPirate
