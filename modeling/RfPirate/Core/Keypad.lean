/-
Module: RfPirate.Core.Keypad
Layer: Core
Purpose: `keypad.cpp` and the converter it drives. Setting ADSC while no conversion runs starts one
  of the channel then in ADMUX; while one runs it has no effect. Every path sets ADIE, so the end of
  each conversion runs the interrupt once; that is one step, and the channel that was sampled is
  recorded with the events it posts.
Main exports: Keypad, adcIsr, keypadTimetickCb, vbattReadCb, keypadInit, AdcAct, AdcObs, adcStep
-/
import RfPirate.Core.EvtHandler

namespace RfPirate

open Lib

/-! ### Thresholds and states -/

def keyDownTh : UInt8 := 20
def keyRightTh : UInt8 := 140
def keySelectTh : UInt8 := 20
def keyUpTh : UInt8 := 140
def keyLeftTh : UInt8 := 240

def readAdc5 : UInt8 := 1
def readAdc6 : UInt8 := 2
def readVbatt : UInt8 := 3

/-- The private variables, ADMUX, and the channel of the running conversion. -/
structure Keypad where
  state : UInt8
  lastKeycode : UInt8
  admux : UInt8
  conversion : Option UInt8
deriving DecidableEq, Repr

/-- `ADMUX &= ~0x1f; ADMUX |= channel`. -/
def Keypad.select (s : Keypad) (channel : UInt8) : Keypad :=
  { s with admux := (s.admux &&& ~~~0x1f) ||| channel }

/-- `ADCSRA |= 0x40`. -/
def Keypad.start (s : Keypad) : Keypad :=
  match s.conversion with
  | some _ => s
  | none => { s with conversion := some (s.admux &&& 0x1f) }

def keypadTimetickCb (s : Keypad) : Keypad :=
  (s.select (if s.state = readAdc5 then 5 else 6)).start

def vbattReadCb (s : Keypad) : Keypad :=
  { (s.select 7).start with state := readVbatt }

/-- `keypad_lastkeycode`. -/
def keypadLastkeycode (s : Keypad) : UInt8 := s.lastKeycode

/-! ### The interrupt -/

/-- The keycode of a channel 5 result, 0 for none. -/
def keycode5 (val : UInt8) : UInt8 :=
  if val < keyDownTh then keyDown else if val < keyRightTh then keyRight else 0

/-- The keycode of a channel 6 result, 0 for none. -/
def keycode6 (val : UInt8) : UInt8 :=
  if val < keySelectTh then keySelect
  else if val < keyUpTh then keyUp
  else if val < keyLeftTh then keyLeft
  else 0

/-- The end of the interrupt: a keycode other than 0 is posted, and it is remembered. -/
def Keypad.produce (s : Keypad) (keycode : UInt8) (events : List EventT) : Keypad × List EventT :=
  ({ s with lastKeycode := keycode },
    if keycode ≠ 0 then events ++ [⟨eventKeypress, keycode.toUInt16⟩] else events)

/-- `ISR(ADC_vect)`, for the result `val`: the state it leaves and the events it posts. -/
def adcIsr (s : Keypad) (val : UInt8) : Keypad × List EventT :=
  if s.state = readAdc5 then { s with state := readAdc6 }.produce (keycode5 val) []
  else if s.state = readAdc6 then { s with state := readAdc5 }.produce (keycode6 val) []
  else if s.state = readVbatt then
    if val ≠ 0xff then { s with state := readAdc5 }.produce 0 [⟨eventVbatt, val.toUInt16⟩]
    else (vbattReadCb s).produce 0 []
  else s.produce 0 []

/-! ### The machine -/

/-- Labels: the two timer callbacks, and the end of a conversion with its result. -/
inductive AdcAct where
  | keypadTick
  | vbattTick
  | complete (val : UInt8)
deriving DecidableEq, Repr

/-- An event the interrupt posts, and the channel that was sampled for it. -/
structure AdcObs where
  channel : UInt8
  event : EventT
deriving DecidableEq, Repr

def adcStep : Machine.Step Keypad AdcAct AdcObs
  | s, .keypadTick => some (keypadTimetickCb s, [])
  | s, .vbattTick => some (vbattReadCb s, [])
  | s, .complete val =>
      match s.conversion with
      | none => none
      | some channel =>
          let r := adcIsr { s with conversion := none } val
          some (r.1, r.2.map (AdcObs.mk channel))

/-- `keypad_init`, with the static variables zeroed and the converter idle. -/
def keypadInit : Keypad :=
  vbattReadCb { state := readAdc5, lastKeycode := 0, admux := 0x60, conversion := none }

end RfPirate
