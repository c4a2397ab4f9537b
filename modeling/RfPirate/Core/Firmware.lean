/-
Module: RfPirate.Core.Firmware
Layer: Core
Purpose: The firmware as a whole: the timer interrupt with the clients that `ui_setup` and
  `keypad_init` register, the end of a conversion, the interrupt of the radio, and `main`, which
  calls `evt_handler_dispatch` for ever. No interrupt interrupts another one, so each is one step.
Main exports: Firmware, clients, clientCall, clientLoop, timerIsr, FirmwareAct, FirmwareObs,
  firmwareStep, boot
-/
import RfPirate.Core.Keypad
import RfPirate.Core.SerialPath
import RfPirate.Core.Timetick
import RfPirate.Core.Ui

namespace RfPirate

open Lib

/-! ### Addresses -/

def ledKeepaliveFn : TimetickCb := 1
def processUsbFn : TimetickCb := 2
def keypadTimetickFn : TimetickCb := 3
def vbattReadFn : TimetickCb := 4

/-- The clients after `ui_setup`, with those of `keypad_init(7)`. -/
def clients : ClientTable :=
  let client := timetickRegister timetickInit.client (some ledKeepaliveFn) 50
  let client := timetickRegister client (some processUsbFn) 2
  let client := timetickRegister client (some keypadTimetickFn) 7
  timetickRegister client (some vbattReadFn) 6000

/-! ### State -/

/-- The variables of all subsystems, and the two registers that enable the interrupt of the
    radio. -/
structure Firmware where
  ui : UiState
  keypad : Keypad
  count : UInt16
  client : ClientTable
  pcmsk0 : UInt8
  pcicr : UInt8

/-- What happens to an observer: calls and ends of the timer interrupt, what goes to the USB stack,
    samples of the converter, radio events, and what the dispatcher offers to whom. -/
inductive FirmwareObs where
  | timer (o : TimetickObs)
  | serial (o : SerialOut)
  | sampled (o : AdcObs)
  | radio (event : UInt8)
  | offered (o : Offer)
deriving DecidableEq, Repr

/-- The serial object is one of the variables that the handlers use. -/
def Firmware.ser (s : Firmware) : UsbSerial := s.ui.world.rest.ser

/-- Posts, one after the other. -/
def postAll (q : EventQueue) (events : List EventT) : EventQueue :=
  events.foldl (fun q e => evtHandlerEvent q e.event e.data) q

/-! ### The timer interrupt -/

/-- `led_keepalive`. -/
def ledKeepalive (s : Firmware) : Firmware :=
  { s with ui := { s.ui with world := s.ui.world.setRest fun v => { v with led := !v.led } } }

/-- `process_usb`, when the endpoint holds `bank`. -/
def processUsb (o : PostInc) (bank : List UInt8) (s : Firmware) : Firmware × List SerialOut :=
  let r := process o s.ser bank
  ({ s with
      ui :=
        { queue := (posts r.2).foldl postLine s.ui.queue
          world := s.ui.world.setRest fun v => { v with ser := r.1 } } }, r.2)

/-- The `timetick_cb_t` function at a code address. -/
def clientCall (o : PostInc) (bank : List UInt8) (cb : TimetickCb) (s : Firmware) :
    Firmware × List FirmwareObs :=
  if cb = ledKeepaliveFn then (ledKeepalive s, [])
  else if cb = processUsbFn then
    let r := processUsb o bank s
    (r.1, r.2.map .serial)
  else if cb = keypadTimetickFn then ({ s with keypad := keypadTimetickCb s.keypad }, [])
  else if cb = vbattReadFn then ({ s with keypad := vbattReadCb s.keypad }, [])
  else (s, [])

/-- The `for` loop of `ISR(TIMER0_COMPA_vect)` over the clients to go. A modulo by zero has no
    result. -/
def clientLoop (o : PostInc) (bank : List UInt8) :
    List ClientPtr → Firmware → Option (Firmware × List FirmwareObs)
  | [], s => some (s, [])
  | i :: is, s =>
      match (s.client i).cb with
      | none => clientLoop o bank is s
      | some cb =>
          if (s.client i).ticks = 0 then none
          else if s.count % (s.client i).ticks = 0 then
            let r := clientCall o bank cb s
            (clientLoop o bank is r.1).map fun r' =>
              (r'.1, .timer (.called i cb s.count) :: r.2 ++ r'.2)
          else clientLoop o bank is s

/-- `ISR(TIMER0_COMPA_vect)`. -/
def timerIsr (o : PostInc) (bank : List UInt8) (s : Firmware) :
    Option (Firmware × List FirmwareObs) :=
  (clientLoop o bank (List.finRange clientCnt) s).map fun r =>
    ({ r.1 with count := r.1.count + 1 }, r.2 ++ [.timer .tick])

/-! ### The machine -/

/-- Labels: the timer interrupt, with the bytes that the USB endpoint holds; the end of the running
    conversion; a change of the pin that the radio signals on; the registers of the radio moving;
    and a round of `evt_handler_dispatch`, as in `UiAct`. -/
inductive FirmwareAct where
  | timer (bank : List UInt8)
  | converted (val : UInt8)
  | pinChange
  | radio (regs : RegFile)
  | round (rv : UInt8)

def firmwareStep (sys : UInt16) (tbl : CmdTable) (o : PostInc) :
    Machine.Step Firmware FirmwareAct FirmwareObs
  | s, .timer bank => timerIsr o bank s
  | s, .converted val =>
      (adcStep s.keypad (.complete val)).map fun r =>
        ({ s with
            keypad := r.1
            ui := { s.ui with queue := postAll s.ui.queue (r.2.map AdcObs.event) } },
          r.2.map .sampled)
  | s, .pinChange =>
      -- the interrupt of pin 4, if it is enabled
      if s.pcicr &&& 1 = 0 ∨ s.pcmsk0 &&& 0x10 = 0 then none
      else
        let r := pcint0Isr s.ui.world.rest.regs s.ui.queue
        some ({ s with ui := { s.ui with queue := r.1 } }, r.2.map .radio)
  | s, .radio regs =>
      some ({ s with ui := { s.ui with world := s.ui.world.setRegs fun _ => regs } }, [])
  | s, .round rv =>
      (uiStep sys tbl o s.ui (.dispatch rv)).map fun r =>
        ({ s with ui := r.1 }, r.2.map .offered)

/-- `main` before its loop. The timer fires first 10 ms after `timetick_init`, when the clients are
    registered, and what `ui_setup` does after that touches nothing that the interrupts touch. -/
def boot (sys : UInt16) (regs : RegFile) (mem : UsbSerial) : Option Firmware :=
  (uiSetup sys (uiZero regs (usbSerialCtor mem))).map fun w =>
    { ui := { queue := .zero, world := w }
      keypad := keypadInit
      count := 0
      client := clients
      pcmsk0 := 0
      pcicr := 0 }

end RfPirate
