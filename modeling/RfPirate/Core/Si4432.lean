/-
Module: RfPirate.Core.Si4432
Layer: Core
Purpose: The interrupt part of `si4432.cpp` and the register file of the radio it talks to. A burst
  starts at the register of its address byte and moves on by one register a byte; a `uint16_t` is
  read and written through a byte pointer, low byte first.
Main exports: isrFifoUndovr to isrPorEn, rfSpiWritem, rfSpiReadm, Radio, rfEnableIsr, rfDisableIsr,
  rfIrqEvt, pcint0Isr, IsrCall, isrCallStep
-/
import RfPirate.Core.EvtHandler
import RfPirate.Lib.Bytes

namespace RfPirate

open Lib Lib.Bytes

/-! ### ISR maskable bits -/

/-! ISR reg 5 -/

def isrFifoUndovr : UInt16 := 0x8000
def isrFifoTxhi : UInt16 := 0x4000
def isrFifoTxlo : UInt16 := 0x2000
def isrFifoRxhi : UInt16 := 0x1000
def isrExtInten : UInt16 := 0x0800
def isrPktSent : UInt16 := 0x0400
def isrPktRcvd : UInt16 := 0x0200
def isrCrcErr : UInt16 := 0x0100

/-! ISR reg 6 -/

def isrSyncDet : UInt16 := 0x80
def isrValPrmDet : UInt16 := 0x40
def isrInvPrmDet : UInt16 := 0x20
def isrRssi : UInt16 := 0x10
def isrWakeTmr : UInt16 := 0x08
def isrLowBatt : UInt16 := 0x04
def isrXtalRdy : UInt16 := 0x02
def isrPorEn : UInt16 := 0x01

/-! ### Register access -/

/-- The radio's registers, by address. -/
abbrev RegFile := UInt8 → UInt8

/-- The bytes of a burst write, from register `r` on. -/
def burstWrite (regs : RegFile) (r : UInt8) : List UInt8 → RegFile
  | [] => regs
  | b :: bs => burstWrite (Function.update regs r b) (r + 1) bs

/-- The bytes of a burst read of `sz` bytes, from register `r` on. -/
def burstRead (regs : RegFile) (r : UInt8) : Nat → List UInt8
  | 0 => []
  | sz + 1 => regs r :: burstRead regs (r + 1) sz

/-- `rf_spi_writem`. The address byte has bit 7 set for a write; the other bits are the register. -/
def rfSpiWritem (regs : RegFile) (addr : UInt8) (buf : List UInt8) : RegFile :=
  burstWrite regs ((addr ||| 0x80) &&& 0x7f) buf

/-- `rf_spi_readm`. -/
def rfSpiReadm (regs : RegFile) (addr : UInt8) (sz : Nat) : List UInt8 :=
  burstRead regs (addr &&& 0x7f) sz

/-- The bytes of a `uint16_t` in memory. -/
def toBuf (w : UInt16) : List UInt8 := [lowByte w, highByte w]

/-- A `uint16_t` after its bytes were read into it. -/
def ofBuf (buf : List UInt8) : UInt16 := ofBytes (buf.getD 0 0) (buf.getD 1 0)

/-! ### ISR control functions -/

/-- The radio's registers, and the pin-change registers that let its interrupt through. -/
structure Radio where
  regs : RegFile
  pcmsk0 : UInt8
  pcicr : UInt8

/-- `rf_enable_isr`. -/
def rfEnableIsr (s : Radio) (mask : UInt16) : Radio :=
  let tmp := ofBuf (rfSpiReadm s.regs 5 2) ||| mask
  { regs := rfSpiWritem s.regs 5 (toBuf tmp)
    pcmsk0 := s.pcmsk0 ||| ((1 : UInt8) <<< (4 : UInt8))
    pcicr := 1 }

/-- `rf_disable_isr`. -/
def rfDisableIsr (s : Radio) (mask : UInt16) : Radio :=
  let tmp := ofBuf (rfSpiReadm s.regs 5 2) &&& ~~~mask
  { regs := rfSpiWritem s.regs 5 (toBuf tmp)
    pcmsk0 := s.pcmsk0 &&& ~~~((1 : UInt8) <<< (4 : UInt8))
    pcicr := 0 }

/-! ### RF IRQ interrupt -/

/-- Map irqs to events. -/
def rfIrqEvt : List UInt8 :=
  [eventIsrFifoUndovr, eventIsrFifoTxhi, eventIsrFifoTxlo, eventIsrFifoRxhi, eventIsrExtInten,
    eventIsrPktSent, eventIsrPktRcvd, eventIsrCrcErr, eventIsrSyncDet, eventIsrValPrmDet,
    eventIsrInvPrmDet, eventIsrRssi, eventIsrWakeTmr, eventIsrLowBatt, eventIsrXtalRdy,
    eventIsrPorEn]

/-- The `for` loop of the interrupt, with the entries of `rf_irq_evt` from `i` on: the events it
    posts. `irq` is only shifted past a set bit. -/
def irqLoop : List UInt8 → UInt16 → List UInt8
  | [], _ => []
  | evt :: evts, irq =>
      if irq = 0 then []
      else if irq &&& 0x8000 ≠ 0 then evt :: irqLoop evts (irq <<< 1)
      else irqLoop evts irq

/-- `ISR(PCINT0_vect)`: the queue it leaves and the events it posts. -/
def pcint0Isr (regs : RegFile) (q : EventQueue) : EventQueue × List UInt8 :=
  let evts := irqLoop rfIrqEvt (ofBuf (rfSpiReadm regs 3 2))
  (evts.foldl (fun q evt => evtHandlerEvent q evt 0) q, evts)

/-! ### Calls of the control functions -/

inductive IsrCall where
  | enable (mask : UInt16)
  | disable (mask : UInt16)
deriving DecidableEq, Repr

/-- The radio, and the sources that were enabled by a call and not disabled since. -/
structure RadioUse where
  radio : Radio
  requested : UInt16

def isrCallStep : Machine.Step RadioUse IsrCall Unit
  | s, .enable mask =>
      some ({ radio := rfEnableIsr s.radio mask, requested := s.requested ||| mask }, [])
  | s, .disable mask =>
      some ({ radio := rfDisableIsr s.radio mask, requested := s.requested &&& ~~~mask }, [])

/-- Before the first call. -/
def RadioUse.init (radio : Radio) : RadioUse := { radio := radio, requested := 0 }

end RfPirate
