/-
Module: RfPirate.Core.Programmer
Layer: Core
Purpose: What the bootloader is for: the commands of a programmer, their bytes on the wire, and what
  each does to the target and answers, with no endpoints and no packets. This is a statement of the
  purpose; `Bootloader` has the code.
Main exports: BootCommand, BootCommand.bytes, BootCommand.Valid, BootCommand.exec,
  BootCommand.upload, BootCommand.burn, programStep
-/
import RfPirate.Core.Bootloader

namespace RfPirate

open Lib Lib.Bytes

/-- The commands. `leave` is `L`, `enter` is `P`, `select` is `T`; `badBlock` is a block command
    with a memory type that does not exist. -/
inductive BootCommand where
  | leave
  | enter
  | select (device : UInt8)
  | exit
  | partCode
  | autoIncrement
  | setAddress (high low : UInt8)
  | programmerType
  | softwareId
  | version
  | signature
  | blockSupport
  | eraseChip
  | setLock (bits : UInt8)
  | readLock
  | readLowFuse
  | readHighFuse
  | readExtFuse
  | fillHigh (b : UInt8)
  | fillLow (b : UInt8)
  | pageWrite
  | writeFlash (data : List UInt8)
  | writeEeprom (data : List UInt8)
  | readFlash (size : Nat)
  | readEeprom (size : Nat)
  | badBlock (write : Bool) (size : Nat) (memoryType : UInt8)
  | readWord
  | writeByte (b : UInt8)
  | readByte
  | sync
  | unknown (command : UInt8)

namespace BootCommand

/-- The size of a block and its memory type, as they follow the command. -/
def blockArgs (size : Nat) (memoryType : UInt8) : List UInt8 :=
  [UInt8.ofNat (size / 256), UInt8.ofNat size, memoryType]

def opcode : BootCommand → UInt8
  | leave => chr 'L'
  | enter => chr 'P'
  | select _ => chr 'T'
  | exit => chr 'E'
  | partCode => chr 't'
  | autoIncrement => chr 'a'
  | setAddress _ _ => chr 'A'
  | programmerType => chr 'p'
  | softwareId => chr 'S'
  | version => chr 'V'
  | signature => chr 's'
  | blockSupport => chr 'b'
  | eraseChip => chr 'e'
  | setLock _ => chr 'l'
  | readLock => chr 'r'
  | readLowFuse => chr 'F'
  | readHighFuse => chr 'N'
  | readExtFuse => chr 'Q'
  | fillHigh _ => chr 'C'
  | fillLow _ => chr 'c'
  | pageWrite => chr 'm'
  | writeFlash _ => chr 'B'
  | writeEeprom _ => chr 'B'
  | readFlash _ => chr 'g'
  | readEeprom _ => chr 'g'
  | badBlock write _ _ => if write then chr 'B' else chr 'g'
  | readWord => chr 'R'
  | writeByte _ => chr 'D'
  | readByte => chr 'd'
  | sync => 27
  | unknown command => command

def args : BootCommand → List UInt8
  | select device => [device]
  | setAddress high low => [high, low]
  | setLock bits => [bits]
  | fillHigh b => [b]
  | fillLow b => [b]
  | writeFlash data => blockArgs data.length (chr 'F') ++ data
  | writeEeprom data => blockArgs data.length (chr 'E') ++ data
  | readFlash size => blockArgs size (chr 'F')
  | readEeprom size => blockArgs size (chr 'E')
  | badBlock _ size memoryType => blockArgs size memoryType
  | writeByte b => [b]
  | _ => []

/-- The command on the wire. -/
def bytes (c : BootCommand) : List UInt8 := c.opcode :: c.args

/-- The codes that `CDC_Task` knows. -/
def known : List UInt8 :=
  [chr 'L', chr 'P', chr 'T', chr 'E', chr 't', chr 'a', chr 'A', chr 'p', chr 'S', chr 'V',
    chr 's', chr 'b', chr 'e', chr 'l', chr 'r', chr 'F', chr 'N', chr 'Q', chr 'C', chr 'c',
    chr 'm', chr 'B', chr 'g', chr 'R', chr 'D', chr 'd', 27]

/-- Sizes fit their field, and the odd ones are what their names say. -/
def Valid : BootCommand → Prop
  | writeFlash data => data.length < 2 ^ 16
  | writeEeprom data => data.length < 2 ^ 16
  | readFlash size => size < 2 ^ 16
  | readEeprom size => size < 2 ^ 16
  | badBlock _ size memoryType => size < 2 ^ 16 ∧ memoryType ≠ chr 'E' ∧ memoryType ≠ chr 'F'
  | unknown command => command ∉ known
  | _ => True

/-! ### Meaning -/

/-- Words for the page buffer from the current address on. -/
def fillWords : List UInt8 → Target → Target
  | low :: high :: data, t =>
      fillWords data
        { t with mem := t.mem.bootPageFill t.currAddress (ofBytes low high) }.advance
  | _, t => t

/-- Bytes for EEPROM from the current address on. -/
def writeBytes : List UInt8 → Target → Target
  | [], t => t
  | b :: data, t =>
      writeBytes data { t with mem := t.mem.eepromWriteByte (t.currAddress / 2) b }.advance

/-- Byte `i` of a flash block that starts at the current address. -/
def flashByte (t : Target) (i : Nat) : UInt8 :=
  t.mem.pgmReadByte ((Target.advance^[i / 2] t).currAddress ||| i % 2)

/-- Byte `i` of an EEPROM block that starts at the current address. -/
def eepromByte (t : Target) (i : Nat) : UInt8 :=
  t.mem.eepromReadByte ((Target.advance^[i] t).currAddress / 2)

/-- The target after a command, and the answer. -/
def exec (t : Target) : BootCommand → Target × List UInt8
  | leave => (t, [charReturn])
  | enter => (t, [charReturn])
  | select _ => (t, [charReturn])
  | exit => ({ t with runBootloader := false }, [charReturn])
  | partCode => (t, [0x44, 0x00])
  | autoIncrement => (t, [chr 'Y'])
  | setAddress high low =>
      ({ t with currAddress := shiftInt high 9 ||| shiftInt low 1 }, [charReturn])
  | programmerType => (t, [chr 'S'])
  | softwareId => (t, softwareIdentifier)
  | version => (t, [chr '1', chr '0'])
  | signature => (t, avrSignature)
  | blockSupport => (t, [chr 'Y', UInt8.ofNat (spmPagesize / 256), UInt8.ofNat spmPagesize])
  | eraseChip => ({ t with mem := chipErase 0 t.mem }, [charReturn])
  | setLock bits => ({ t with mem := t.mem.bootLockBitsSet bits }, [charReturn])
  | readLock => (t, [t.mem.lockBits])
  | readLowFuse => (t, [t.mem.lowFuse])
  | readHighFuse => (t, [t.mem.highFuse])
  | readExtFuse => (t, [t.mem.extFuse])
  | fillHigh b =>
      ({ t with mem := t.mem.bootPageFill t.currAddress b.toUInt16 }, [charReturn])
  | fillLow b =>
      ({ t with mem := t.mem.bootPageFill (t.currAddress ||| 1) b.toUInt16 }.advance, [charReturn])
  | pageWrite => ({ t with mem := t.mem.bootPageWrite t.currAddress }, [charReturn])
  | writeFlash data =>
      let erased := { t with mem := t.mem.bootPageErase t.currAddress }
      let filled := fillWords data erased
      ({ filled with mem := filled.mem.bootPageWrite t.currAddress }, [charReturn])
  | writeEeprom data => (writeBytes data t, [charReturn])
  | readFlash size =>
      let t := { t with mem := t.mem.bootRwwEnable }
      (Target.advance^[size / 2] t, (List.range size).map (flashByte t))
  | readEeprom size =>
      let t := { t with mem := t.mem.bootRwwEnable }
      (Target.advance^[size] t, (List.range size).map (eepromByte t))
  | badBlock _ _ _ => (t, [chr '?'])
  | readWord =>
      let programWord := t.mem.pgmReadWord t.currAddress
      (t, [highByte programWord, lowByte programWord])
  | writeByte b =>
      ({ t with mem := t.mem.eepromWriteByte (t.currAddress / 2) b }.advance, [charReturn])
  | readByte => (t.advance, [t.mem.eepromReadByte (t.currAddress / 2)])
  | sync => (t, [])
  | unknown _ => (t, [chr '?'])

/-! ### Uploads -/

/-- The command for the address of a word. -/
def setWord (w : Nat) : BootCommand := setAddress (UInt8.ofNat (w / 256)) (UInt8.ofNat w)

/-- Blocks that are written where they belong, each from a word on. -/
def upload (blocks : List (Nat × List UInt8)) : List BootCommand :=
  blocks.flatMap fun b => [setWord b.1, writeFlash b.2]

/-- An image cut into pages. -/
def imageBlocks (image : List UInt8) : List (Nat × List UInt8) :=
  (List.range ((image.length + (spmPagesize - 1)) / spmPagesize)).map fun k =>
    (spmPagesize / 2 * k, (image.drop (spmPagesize * k)).take spmPagesize)

/-- What a block leaves in flash: its page is blank but for the whole words of the block. -/
def burn (cells : Nat → UInt8) (b : Nat × List UInt8) : Nat → UInt8 := fun i =>
  if i / spmPagesize = 2 * b.1 / spmPagesize then
    if 2 * b.1 ≤ i ∧ i < 2 * b.1 + 2 * (b.2.length / 2) then b.2.getD (i - 2 * b.1) 0xff else 0xff
  else cells i

/-- The block starts in flash and ends in the page it starts in. -/
def Fits (b : Nat × List UInt8) : Prop :=
  2 * b.1 < flashSize ∧ 2 * b.1 % spmPagesize + b.2.length ≤ spmPagesize

instance (b : Nat × List UInt8) : Decidable (Fits b) :=
  inferInstanceAs (Decidable (_ ∧ _))

end BootCommand

/-- The bytes of a memory of some size from an address on; they come round at the end of it. -/
def cellRange (size : Nat) (cells : Nat → UInt8) (a n : Nat) : List UInt8 :=
  (List.range n).map fun i => cells ((a + i) % size)

/-- A session as a machine: each command, and whether the host is still there for the answer. -/
def programStep : Machine.Step Target (BootCommand × Bool) (List UInt8) := fun t c =>
  some ((BootCommand.exec t c.1).1, if c.2 then [(BootCommand.exec t c.1).2] else [])

end RfPirate
