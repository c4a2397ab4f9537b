/-
Module: RfPirate.Core.System
Layer: Core
Purpose: Key codes and event codes of `system.h`, and the code addresses the firmware passes around.
Main exports: keyUp, keyDown, keyLeft, keyRight, keySelect, eventKeypress to eventIconUpdt,
  eventAppStart, eventAppStop, eventSerialRecv, eventIsrFifoUndovr to eventIsrPorEn
-/
import Mathlib.Data.List.Basic

namespace RfPirate

/-- Address of an `event_notify_cb` function. -/
abbrev EventNotifyCb := Nat

/-! ### Keycodes -/

def keyUp : UInt8 := 0x80
def keyDown : UInt8 := 0x81
def keyLeft : UInt8 := 0x82
def keyRight : UInt8 := 0x83
def keySelect : UInt8 := 0x84

/-! ### Events -/

def eventKeypress : UInt8 := 0x10
def eventVbatt : UInt8 := 0x11
def eventSdDet : UInt8 := 0x12
def eventSdRmv : UInt8 := 0x13
def eventIconUpdt : UInt8 := 0x14
def eventAppStart : UInt8 := 0x20
def eventAppStop : UInt8 := 0x21
def eventSerialRecv : UInt8 := 0x30

/-! ### RF IRQ events -/

def eventIsrFifoUndovr : UInt8 := 0x40
def eventIsrFifoTxhi : UInt8 := 0x41
def eventIsrFifoTxlo : UInt8 := 0x42
def eventIsrFifoRxhi : UInt8 := 0x43
def eventIsrExtInten : UInt8 := 0x44
def eventIsrPktSent : UInt8 := 0x45
def eventIsrPktRcvd : UInt8 := 0x46
def eventIsrCrcErr : UInt8 := 0x47
def eventIsrSyncDet : UInt8 := 0x48
def eventIsrValPrmDet : UInt8 := 0x49
def eventIsrInvPrmDet : UInt8 := 0x4a
def eventIsrRssi : UInt8 := 0x4b
def eventIsrWakeTmr : UInt8 := 0x4c
def eventIsrLowBatt : UInt8 := 0x4d
def eventIsrXtalRdy : UInt8 := 0x4e
def eventIsrPorEn : UInt8 := 0x4f

end RfPirate
