/-
Module: RfPirate.Core.UsbSerial
Layer: Core
Purpose: `usb_serial.cpp`: line buffering of received bytes and the circular buffer of messages to
  send. The USB stack is what is read from and written to: a received bank of bytes goes in, a list
  of outputs comes out. The macro `WRAP(i, depth)` expands to `i = (i >= depth) ? 0 : i++`, which
  the language leaves open, so every function that uses it takes the outcome as a parameter.
Main exports: UsbSerial, PostInc, wrap, bufferRx, processTx, process, printf
-/
import RfPirate.Core.System
import RfPirate.Lib.CString
import Mathlib.Logic.Function.Basic

namespace RfPirate

open Lib Lib.CString

/-! ### Configuration -/

def usbSerialBufSz : Nat := 30
def rxDepth : Nat := 2
def txDepth : Nat := 5

/-- Bytes in a bank of the CDC data endpoints (`CDC_TXRX_EPSIZE`). -/
def cdcTxrxEpsize : Nat := 16

/-- What `i = i++` leaves in `i`. -/
inductive PostInc where
  | unchanged
  | incremented
deriving DecidableEq, Repr

/-- The `WRAP` macro on a `uint8_t`. -/
def wrap (o : PostInc) (i depth : Nat) : Nat :=
  if i ≥ depth then 0
  else
    match o with
    | .unchanged => i
    | .incremented => (i + 1) % 256

/-! ### Characters -/

def charCr : UInt8 := 13
def charLf : UInt8 := 10
def charBs : UInt8 := 8
def charSpace : UInt8 := 32

/-- `"RX OVFLW\r\n"`. -/
def rxOvflw : List UInt8 := [82, 88, 32, 79, 86, 70, 76, 87, 13, 10]

/-! ### The object -/

/-- `string_t`: receive buffer data structure. -/
structure StringT where
  data : Nat → UInt8
  len : Nat

/-- The data members of `UsbSerial`. An index of `rx_q` or `tx_q` from its depth on names the memory
    behind the array, which is taken to be used by nobody else. -/
structure UsbSerial where
  rxP : Nat
  rxIdx : Nat
  txH : Nat
  txT : Nat
  txQ : Nat → Nat → UInt8
  rxQ : Nat → StringT

/-- Zeroed static storage. -/
def UsbSerial.zero : UsbSerial :=
  { rxP := 0, rxIdx := 0, txH := 0, txT := 0, txQ := fun _ _ => 0, rxQ := fun _ => ⟨fun _ => 0, 0⟩ }

/-- What the code hands to the USB stack or to the event queue. -/
inductive SerialOut where
  | sendByte (b : UInt8)
  | print (text : List UInt8)
  | post (p : Nat)
deriving DecidableEq, Repr

/-- The constructor, run over the memory the object is built in. -/
def usbSerialCtor (mem : UsbSerial) : UsbSerial :=
  { rxP := 0, rxIdx := 0, txH := 0, txT := 0
    rxQ := fun i =>
      if i < rxDepth then { mem.rxQ i with data := Function.update (mem.rxQ i).data 0 0 }
      else mem.rxQ i
    txQ := fun i => if i < txDepth then Function.update (mem.txQ i) 0 0 else mem.txQ i }

/-! ### Receiving -/

/-- `rx_q[rx_p].data[rx_idx] = b`. -/
def UsbSerial.storeRx (s : UsbSerial) (b : UInt8) : UsbSerial :=
  let str := s.rxQ s.rxP
  { s with
    rxQ := Function.update s.rxQ s.rxP { str with data := Function.update str.data s.rxIdx b } }

/-- The code at the label `dispatch` of `buffer_rx`: terminate the line, record its length with the
    terminator, post it and go to the next buffer. -/
def bufferRxDispatch (o : PostInc) (s : UsbSerial) : UsbSerial × List SerialOut :=
  let line : StringT :=
    { data := Function.update (s.rxQ s.rxP).data s.rxIdx 0, len := (s.rxIdx + 1) % 256 }
  ({ s with rxQ := Function.update s.rxQ s.rxP line, rxIdx := 0, rxP := wrap o s.rxP rxDepth },
    [.print [charCr, charLf], .post s.rxP])

/-- The `if` of `buffer_rx` that takes a backspace off the line or adds the byte to it. -/
def UsbSerial.editRx (s : UsbSerial) (b : UInt8) : UsbSerial :=
  if b = charBs ∧ s.rxIdx > 0 then { s with rxIdx := s.rxIdx - 1 }
  else { s.storeRx b with rxIdx := (s.rxIdx + 1) % 256 }

/-- `UsbSerial::buffer_rx`. -/
def bufferRx (o : PostInc) (s : UsbSerial) (b : UInt8) : UsbSerial × List SerialOut :=
  if b = charCr ∨ b = charLf then bufferRxDispatch o s
  else
    let echo := SerialOut.sendByte b
    let ovflw : List SerialOut :=
      if s.rxIdx = 0 ∧ (s.rxQ s.rxP).data 0 ≠ 0 then [.print rxOvflw] else []
    let s₁ := s.editRx b
    if s₁.rxIdx = usbSerialBufSz - 1 then
      let r := bufferRxDispatch o s₁
      (r.1, echo :: (ovflw ++ r.2))
    else (s₁, echo :: ovflw)

/-- The bytes that end a line at once. -/
def isEol (b : UInt8) : Bool := b = charCr ∨ b = charLf

/-- The buffers whose lines the outputs post. -/
def posts (out : List SerialOut) : List Nat :=
  out.filterMap fun
    | .post p => some p
    | _ => none

section BufferRx

variable {o : PostInc} {s : UsbSerial} {b : UInt8}

@[simp] theorem posts_bufferRxDispatch : posts (bufferRxDispatch o s).2 = [s.rxP] := rfl

@[simp] theorem editRx_rxP : (s.editRx b).rxP = s.rxP := by
  unfold UsbSerial.editRx
  split <;> rfl

theorem bufferRx_eol (h : isEol b = true) : bufferRx o s b = bufferRxDispatch o s := by
  have hb : b = charCr ∨ b = charLf := by simpa [isEol] using h
  simp [bufferRx, hb]

/-- A byte that fills the buffer ends the line as CR and LF do. -/
theorem bufferRx_full (h : isEol b = false) (hfull : (s.editRx b).rxIdx = usbSerialBufSz - 1) :
    (bufferRx o s b).1 = (bufferRxDispatch o (s.editRx b)).1 ∧
      posts (bufferRx o s b).2 = [s.rxP] := by
  have hb : ¬ (b = charCr ∨ b = charLf) := by simpa [isEol] using h
  simp only [bufferRx, if_neg hb, if_pos hfull, true_and]
  split <;> simp [posts, bufferRxDispatch]

theorem bufferRx_edit (h : isEol b = false) (hroom : (s.editRx b).rxIdx ≠ usbSerialBufSz - 1) :
    (bufferRx o s b).1 = s.editRx b ∧ posts (bufferRx o s b).2 = [] := by
  have hb : ¬ (b = charCr ∨ b = charLf) := by simpa [isEol] using h
  simp only [bufferRx, if_neg hb, if_neg hroom, true_and]
  split <;> simp [posts]

end BufferRx

/-- The `while (b_avail-- > 0)` loop of `process`, over the bytes it takes from the endpoint. -/
def rxLoop (o : PostInc) : UsbSerial → List UInt8 → UsbSerial × List SerialOut
  | s, [] => (s, [])
  | s, b :: bs =>
      let r := bufferRx o s b
      let r' := rxLoop o r.1 bs
      (r'.1, r.2 ++ r'.2)

/-- How often that loop runs when `n` bytes are available: `b_avail` is an `int8_t`. -/
def bAvail (n : Nat) : Nat := if n % 256 < 128 then n % 256 else 0

/-- The bytes of the endpoint's bank that one call of `process` hands to `buffer_rx`. -/
def received (bank : List UInt8) : List UInt8 := bank.take (bAvail bank.length)

/-! ### Sending -/

/-- The part of `process` that sends one message. -/
def processTx (o : PostInc) (s : UsbSerial) : UsbSerial × List SerialOut :=
  if s.txQ s.txT 0 ≠ 0 then
    ({ s with
        txQ := Function.update s.txQ s.txT (Function.update (s.txQ s.txT) 0 0)
        txT := wrap o ((s.txT + 1) % 256) txDepth },
      [.print (cstr usbSerialBufSz (s.txQ s.txT))])
  else (s, [])

/-- `UsbSerial::process`, when the endpoint holds `bank`. -/
def process (o : PostInc) (s : UsbSerial) (bank : List UInt8) : UsbSerial × List SerialOut :=
  let r := rxLoop o s (received bank)
  let r' := processTx o r.1
  (r'.1, r.2 ++ r'.2)

/-- `UsbSerial::printf`, when the format and its arguments give `text`. -/
def printf (o : PostInc) (s : UsbSerial) (text : CStr) : UsbSerial :=
  if s.txQ s.txH 0 ≠ 0 then s
  else
    { s with
      txQ := Function.update s.txQ s.txH (storeStr usbSerialBufSz text.bytes (s.txQ s.txH))
      txH := wrap o ((s.txH + 1) % 256) txDepth }

end RfPirate
