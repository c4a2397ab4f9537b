/-
Module: RfPirate.Core.SerialPath
Layer: Core
Purpose: The way of a received line, from `buffer_rx` in the timer interrupt over the event queue to
  `cmdp_parse_cmd` in the dispatcher, as two machines: that of the lines alone, byte by byte, and
  that of the whole serial object with `process` and `printf`. A pointer to a line is the index of
  its buffer in `rx_q`.
Main exports: SerialPath, PathAct, pathStep, pathInit, SerialState, SerialAct, serialStep,
  serialInit
-/
import RfPirate.Core.CmdParser
import RfPirate.Core.EvtHandler

namespace RfPirate

open Lib

/-! ### Lines -/

/-- The serial object, the event queue, and the buffers posted so far, the last one at the end. -/
structure SerialPath where
  ser : UsbSerial
  queue : EventQueue
  posted : List Nat

/-- Labels: a received byte, a post of anything but a line, and a round of the dispatcher. -/
inductive PathAct where
  | rx (b : UInt8)
  | post (event : UInt8) (data : UInt16)
  | dispatch

/-- `evt_handler_event(EVENT_SERIAL_RECV, (uint16_t)&rx_q[p])`. -/
def postLine (q : EventQueue) (p : Nat) : EventQueue :=
  evtHandlerEvent q eventSerialRecv (UInt16.ofNat p)

/-- A received byte is one step of `buffer_rx`. A round of the dispatcher handles the oldest event
    as `ui_event_notify` does: a line is parsed as it stands then, and the buffer is released. The
    lookup of the command does not write to the line and is left out. -/
def pathStep (o : PostInc) : Machine.Step SerialPath PathAct SerialOut
  | s, .rx b =>
      let r := bufferRx o s.ser b
      some ({ ser := r.1
              queue := (posts r.2).foldl postLine s.queue
              posted := s.posted ++ posts r.2 }, r.2)
  | s, .post event data =>
      if event = eventSerialRecv then none
      else some ({ s with queue := evtHandlerEvent s.queue event data }, [])
  | s, .dispatch =>
      if s.queue.qTail = s.queue.qHead then some (s, [])
      else
        let e := s.queue.eventQ s.queue.qTail
        let p := e.data.toNat
        let ser :=
          if e.event = eventSerialRecv then
            { s.ser with rxQ := Function.update s.ser.rxQ p (parsedStr (s.ser.rxQ p)) }
          else s.ser
        some ({ s with ser := ser, queue := s.queue.advance }, [])

def pathInit (mem : UsbSerial) : SerialPath :=
  { ser := usbSerialCtor mem, queue := .zero, posted := [] }

/-! ### The whole object -/

/-- The serial object and the event queue. -/
structure SerialState where
  ser : UsbSerial
  queue : EventQueue

/-- Labels: a call of `process` when the endpoint holds `bank`, a post of anything but a line, and a
    round of the dispatcher. -/
inductive SerialAct where
  | process (bank : List UInt8)
  | post (event : UInt8) (data : UInt16)
  | dispatch

/-- A round whose parse is a fault has no step. -/
def serialStep (tbl : CmdTable) (o : PostInc) : Machine.Step SerialState SerialAct SerialOut
  | s, .process bank =>
      let r := RfPirate.process o s.ser bank
      some ({ ser := r.1, queue := (posts r.2).foldl postLine s.queue }, r.2)
  | s, .post event data =>
      if event = eventSerialRecv then none
      else some ({ s with queue := evtHandlerEvent s.queue event data }, [])
  | s, .dispatch =>
      if s.queue.qTail = s.queue.qHead then some (s, [])
      else
        let e := s.queue.eventQ s.queue.qTail
        if e.event = eventSerialRecv then
          (s.ser.parseCmd tbl o e.data.toNat).map fun ser =>
            ({ ser := ser, queue := s.queue.advance }, [])
        else some ({ s with queue := s.queue.advance }, [])

def serialInit (mem : UsbSerial) : SerialState := { ser := usbSerialCtor mem, queue := .zero }

end RfPirate
