/-
Module: RfPirate.Core.Bootloader
Layer: Core
Purpose: `BootloaderCDC.c`: the commands of a programmer that arrive over the CDC data endpoints,
  and the loop of `main` with its time-out. The endpoints have one bank. The packets of the OUT
  endpoint are those that the host sends before it is detached: a fetch that finds none is the wait
  that the detached state ends, with a 0. The host takes every packet of the IN endpoint while it is
  attached. `int` has 16 bits. That a page of the bootloader itself is written does not change what
  runs.
Main exports: Target, Boot, fetchNextCommandByte, writeNextResponseByte, readWriteMemoryBlock,
  runCommand, cdcTask, BootMain, mainIteration, bootStep
-/
import RfPirate.Core.AvrMemory
import RfPirate.Lib.CString
import RfPirate.Lib.Machine
import RfPirate.Lib.Packets

namespace RfPirate

open Lib Lib.Bytes Lib.CString Lib.Packets

/-! ### State -/

/-- `CDC_TXRX_EPSIZE` of the bootloader. -/
def bootEpsize : Nat := 16

/-- A character constant. -/
def chr (c : Char) : UInt8 := UInt8.ofNat c.toNat

/-- The carriage return. -/
def charReturn : UInt8 := 13

/-- What commands work on: the memories, `CurrAddress`, and `RunBootloader`. -/
structure Target where
  mem : AvrMemory
  currAddress : Nat
  runBootloader : Bool

/-- `CurrAddress += 2`. -/
def Target.advance (t : Target) : Target :=
  { t with currAddress := (t.currAddress + 2) % 2 ^ 32 }

/-- The target, `boottimeout`, the packets of the OUT endpoint from the held one on, and the IN
    endpoint. -/
structure Boot where
  target : Target
  boottimeout : Nat
  out : List (List UInt8)
  tx : Writer UInt8

/-! ### Endpoints -/

/-- `FetchNextCommandByte`. -/
def fetchNextCommandByte (s : Boot) : UInt8 × Boot :=
  ((fetch 0 s.out).1, { s with out := (fetch 0 s.out).2 })

/-- The IN endpoint after a response byte. A full packet goes out first; nobody takes it when the
    host is detached, and then the byte is not written. -/
def nextTx (out : List (List UInt8)) (tx : Writer UInt8) (response : UInt8) : Writer UInt8 :=
  if tx.bank.length < bootEpsize then tx.write response
  else if out = [] then tx
  else tx.send.write response

/-- `WriteNextResponseByte`. -/
def writeNextResponseByte (response : UInt8) (s : Boot) : Boot :=
  { s with tx := nextTx s.out s.tx response }

/-- Response bytes, one after the other. -/
def writeResponse (responses : List UInt8) (s : Boot) : Boot :=
  responses.foldl (fun s response => writeNextResponseByte response s) s

/-! ### Memory blocks -/

def Boot.update (s : Boot) (f : Target → Target) : Boot := { s with target := f s.target }

/-- The `while` loop of `ReadWriteMemoryBlock` that reads. -/
def readLoop (memoryType : UInt8) : Nat → Bool → Boot → Boot
  | 0, _, s => s
  | blockSize + 1, highByte, s =>
      if memoryType = chr 'F' then
        let t := s.target
        let s := writeNextResponseByte (t.mem.pgmReadByte (t.currAddress ||| highByte.toNat)) s
        -- if both bytes in current word have been read, increment the address counter
        let s := if highByte then s.update Target.advance else s
        readLoop memoryType blockSize (!highByte) s
      else
        let t := s.target
        let s := writeNextResponseByte (t.mem.eepromReadByte (t.currAddress / 2)) s
        readLoop memoryType blockSize highByte (s.update Target.advance)

/-- The `while` loop that writes. -/
def writeLoop (memoryType : UInt8) : Nat → Bool → UInt8 → Boot → Boot
  | 0, _, _, s => s
  | blockSize + 1, highByte, low, s =>
      let b := (fetchNextCommandByte s).1
      let s := (fetchNextCommandByte s).2
      if memoryType = chr 'F' then
        if highByte then
          let s := s.update fun t =>
            { t with mem := t.mem.bootPageFill t.currAddress (ofBytes low b) }
          writeLoop memoryType blockSize false low (s.update Target.advance)
        else writeLoop memoryType blockSize true b s
      else
        let s := s.update fun t =>
          { t with mem := t.mem.eepromWriteByte (t.currAddress / 2) b }
        writeLoop memoryType blockSize highByte low (s.update Target.advance)

/-- `ReadWriteMemoryBlock` behind the bytes that name the block. -/
def transferBlock (command memoryType : UInt8) (blockSize : Nat) (s : Boot) : Boot :=
  if memoryType ≠ chr 'E' ∧ memoryType ≠ chr 'F' then writeNextResponseByte (chr '?') s
  else if command = chr 'g' then
    -- re-enable RWW section
    let s := s.update fun t => { t with mem := t.mem.bootRwwEnable }
    readLoop memoryType blockSize false s
  else
    let pageStartAddress := s.target.currAddress
    let s :=
      if memoryType = chr 'F' then
        s.update fun t => { t with mem := t.mem.bootPageErase pageStartAddress }
      else s
    let s := writeLoop memoryType blockSize false 0 s
    -- if in FLASH programming mode, commit the page after writing
    let s :=
      if memoryType = chr 'F' then
        s.update fun t => { t with mem := t.mem.bootPageWrite pageStartAddress }
      else s
    writeNextResponseByte charReturn s

/-- `ReadWriteMemoryBlock`. -/
def readWriteMemoryBlock (command : UInt8) (s : Boot) : Boot :=
  let high := (fetchNextCommandByte s).1
  let s := (fetchNextCommandByte s).2
  let low := (fetchNextCommandByte s).1
  let s := (fetchNextCommandByte s).2
  let memoryType := (fetchNextCommandByte s).1
  let s := (fetchNextCommandByte s).2
  transferBlock command memoryType (high.toNat * 256 + low.toNat) s

/-! ### Commands -/

/-- A byte shifted left as an `int`, then as a `uint32_t`. -/
def shiftInt (b : UInt8) (k : Nat) : Nat :=
  let v := b.toNat * 2 ^ k % 2 ^ 16
  if v < 2 ^ 15 then v else v + (2 ^ 32 - 2 ^ 16)

/-- The loop of the command that clears the application section. -/
def chipErase (currFlashAddress : Nat) (m : AvrMemory) : AvrMemory :=
  if currFlashAddress < bootStartAddr then
    chipErase (currFlashAddress + spmPagesize + 1)
      ((m.bootPageErase currFlashAddress).bootPageWrite currFlashAddress)
  else m
termination_by bootStartAddr - currFlashAddress
decreasing_by omega

/-- `SOFTWARE_IDENTIFIER`. -/
def softwareIdentifier : List UInt8 := ascii "LUFACDC"

def avrSignature : List UInt8 := [0x87, 0x95, 0x1e]

/-- The command that `CDC_Task` has fetched, up to the end of its response. -/
def runCommand (command : UInt8) (s : Boot) : Boot :=
  if command = chr 'L' ∨ command = chr 'P' ∨ command = chr 'T' ∨ command = chr 'E' then
    let s :=
      if command = chr 'E' then s.update fun t => { t with runBootloader := false }
      else if command = chr 'T' then (fetchNextCommandByte s).2
      else s
    writeNextResponseByte charReturn s
  else if command = chr 't' then writeResponse [0x44, 0x00] s
  else if command = chr 'a' then writeNextResponseByte (chr 'Y') s
  else if command = chr 'A' then
    let high := (fetchNextCommandByte s).1
    let s := (fetchNextCommandByte s).2
    let low := (fetchNextCommandByte s).1
    let s := (fetchNextCommandByte s).2
    let s := s.update fun t => { t with currAddress := shiftInt high 9 ||| shiftInt low 1 }
    writeNextResponseByte charReturn s
  else if command = chr 'p' then writeNextResponseByte (chr 'S') s
  else if command = chr 'S' then writeResponse softwareIdentifier s
  else if command = chr 'V' then writeResponse [chr '1', chr '0'] s
  else if command = chr 's' then writeResponse avrSignature s
  else if command = chr 'b' then
    writeResponse [chr 'Y', UInt8.ofNat (spmPagesize / 256), UInt8.ofNat spmPagesize] s
  else if command = chr 'e' then
    let s := s.update fun t => { t with mem := chipErase 0 t.mem }
    writeNextResponseByte charReturn s
  else if command = chr 'l' then
    let bits := (fetchNextCommandByte s).1
    let s := (fetchNextCommandByte s).2
    let s := s.update fun t => { t with mem := t.mem.bootLockBitsSet bits }
    writeNextResponseByte charReturn s
  else if command = chr 'r' then writeNextResponseByte s.target.mem.lockBits s
  else if command = chr 'F' then writeNextResponseByte s.target.mem.lowFuse s
  else if command = chr 'N' then writeNextResponseByte s.target.mem.highFuse s
  else if command = chr 'Q' then writeNextResponseByte s.target.mem.extFuse s
  else if command = chr 'C' then
    let b := (fetchNextCommandByte s).1
    let s := (fetchNextCommandByte s).2
    let s := s.update fun t => { t with mem := t.mem.bootPageFill t.currAddress b.toUInt16 }
    writeNextResponseByte charReturn s
  else if command = chr 'c' then
    let b := (fetchNextCommandByte s).1
    let s := (fetchNextCommandByte s).2
    let s := s.update fun t => { t with mem := t.mem.bootPageFill (t.currAddress ||| 1) b.toUInt16 }
    writeNextResponseByte charReturn (s.update Target.advance)
  else if command = chr 'm' then
    let s := s.update fun t => { t with mem := t.mem.bootPageWrite t.currAddress }
    writeNextResponseByte charReturn s
  else if command = chr 'B' ∨ command = chr 'g' then readWriteMemoryBlock command s
  else if command = chr 'R' then
    let programWord := s.target.mem.pgmReadWord s.target.currAddress
    writeResponse [highByte programWord, lowByte programWord] s
  else if command = chr 'D' then
    let b := (fetchNextCommandByte s).1
    let s := (fetchNextCommandByte s).2
    let s := s.update fun t => { t with mem := t.mem.eepromWriteByte (t.currAddress / 2) b }
    writeNextResponseByte charReturn (s.update Target.advance)
  else if command = chr 'd' then
    let t := s.target
    let s := writeNextResponseByte (t.mem.eepromReadByte (t.currAddress / 2)) s
    s.update Target.advance
  else if command = 27 then s
  else writeNextResponseByte (chr '?') s

/-- The end of `CDC_Task`: the response goes to the host and the packet of the command is given up.
    A host that is detached takes no response, and it finds the endpoints set up anew when it comes
    back. -/
def endTask (s : Boot) : Boot :=
  if s.out = [] then { s with tx := { s.tx with bank := [] } }
  else { s with tx := s.tx.finish bootEpsize, out := s.out.tail }

/-- `CDC_Task`. -/
def cdcTask (s : Boot) : Boot :=
  if s.out = [] then s
  else
    let s := { s with boottimeout := 0 }
    let command := (fetchNextCommandByte s).1
    endTask (runCommand command (fetchNextCommandByte s).2)

/-! ### Main -/

/-- `BOOTLOADTIMEOUT`. -/
def bootloadtimeout : Nat := 10

/-- What the loop of `main` works on. -/
structure BootMain where
  boot : Boot
  pwmcounter : Nat
  brightness : Nat
  pulsedirection : Int
  led : Bool

/-- The part of the loop that pulses the LED and counts the pulses. -/
def pulse (m : BootMain) : BootMain :=
  let pwmcounter := (m.pwmcounter + 1) % 256
  let brightness :=
    if pwmcounter = 0 then ((m.brightness + m.pulsedirection) % 256).toNat else m.brightness
  let led := if pwmcounter = brightness then false else if pwmcounter = 0 then true else m.led
  let pulsedirection := if brightness = 255 then -1 else m.pulsedirection
  let ended := brightness = 0 ∧ pulsedirection ≠ 1
  { boot :=
      if ended then { m.boot with boottimeout := (m.boot.boottimeout + 1) % 256 } else m.boot
    pwmcounter := pwmcounter
    brightness := brightness
    pulsedirection := if ended then 1 else pulsedirection
    led := led }

/-- The end of the loop body: after too many pulses the application is started, if there is one. -/
def checkTimeout (s : Boot) : Boot :=
  if s.boottimeout ≥ bootloadtimeout ∧ s.target.mem.pgmReadWord 0 ≠ 0xffff then
    s.update fun t => { t with runBootloader := false }
  else s

/-- The body of the loop, when these packets have arrived since the last round. -/
def mainIteration (packets : List (List UInt8)) (m : BootMain) : BootMain :=
  let m := { m with boot := cdcTask { m.boot with out := m.boot.out ++ packets } }
  let m := pulse m
  { m with boot := checkTimeout m.boot }

/-- A round of the loop, while it runs. -/
def bootStep : Machine.Step BootMain (List (List UInt8)) Unit := fun m packets =>
  if m.boot.target.runBootloader then some (mainIteration packets m, []) else none

/-- When the loop starts. -/
def BootMain.init (mem : AvrMemory) : BootMain where
  boot :=
    { target := { mem := mem, currAddress := 0, runBootloader := true }
      boottimeout := 0
      out := []
      tx := ⟨[], []⟩ }
  pwmcounter := 0
  brightness := 0
  pulsedirection := 1
  led := true

end RfPirate
