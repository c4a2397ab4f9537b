/-
Module: RfPirate.Core.AvrMemory
Layer: Core
Purpose: The memories of the ATmega32U4 as `avr/boot.h`, `avr/pgmspace.h` and `avr/eeprom.h` give
  access to them. An address of flash is cut to 16 bits by the macros, and bit 15 has no cell. An
  erase or write of a page outside the boot section leaves the read-while-write section off until
  `boot_rww_enable`; what is read from it before is not known. Where boot lock bits are programmed,
  `spm` does nothing to its section, and what `lpm` reads is not known. `spm` is not used while an
  EEPROM write is going on.
Main exports: AvrMemory, Unlocked, pgmReadByte, bootPageErase, bootPageFill, bootPageWrite,
  bootRwwEnable, eepromReadByte, eepromWriteByte, bootLockBitsSet
-/
import RfPirate.Lib.Bytes
import RfPirate.Lib.PagedFlash
import Mathlib.Data.Nat.Bitwise

namespace RfPirate

open Lib Lib.Bytes Lib.PagedFlash

/-! ### Sizes -/

/-- `SPM_PAGESIZE`. -/
def spmPagesize : Nat := 128

/-- `FLASHEND + 1`. -/
def flashSize : Nat := 0x8000

/-- `BOOT_START_ADDR` of the makefile. -/
def bootStartAddr : Nat := 0x7000

/-- `E2END + 1`. -/
def eepromSize : Nat := 0x400

/-- Cells of flash: an erase sets all bits, programming clears some. -/
def flashCells : CellKind UInt8 where
  blank := 0xff
  program old data := old &&& data
  program_blank x := by simp [show (0xff : UInt8) = -1 from rfl]
  program_by_blank x := by simp [show (0xff : UInt8) = -1 from rfl]

/-! ### State -/

/-- Flash with its page buffer, whether the read-while-write section is off and what it reads as
    then, EEPROM, lock bits and fuses. -/
structure AvrMemory where
  flash : FlashMem UInt8
  rwwBusy : Bool
  noise : Nat → UInt8
  eeprom : Nat → UInt8
  lockBits : UInt8
  lowFuse : UInt8
  highFuse : UInt8
  extFuse : UInt8

/-- The lock bits that keep `spm` and `lpm` from the application section, and `spm` from the boot
    section. -/
def blb01 : UInt8 := 0x04
def blb02 : UInt8 := 0x08
def blb11 : UInt8 := 0x10

namespace AvrMemory

variable (m : AvrMemory) (address : Nat)

/-! ### Lock bits -/

/-- `spm` is kept from the section of an address. -/
def spmLocked : Bool :=
  let bit := if address % flashSize < bootStartAddr then blb01 else blb11
  decide (m.lockBits &&& bit = 0)

/-- `lpm` is kept from the application section. -/
def lpmLocked : Bool := decide (m.lockBits &&& blb02 = 0)

/-- No section is locked. -/
structure Unlocked : Prop where
  application : m.lockBits &&& blb01 ≠ 0
  read : m.lockBits &&& blb02 ≠ 0
  boot : m.lockBits &&& blb11 ≠ 0

/-- `boot_lock_bits_set`: the bits that are set in the argument are programmed, to 0. -/
def bootLockBitsSet (bits : UInt8) : AvrMemory :=
  { m with lockBits := m.lockBits &&& ~~~(bits &&& 0x3f) }

/-! ### Flash -/

/-- `pgm_read_byte`. -/
def pgmReadByte : UInt8 :=
  let i := address % flashSize
  if (m.rwwBusy = true ∨ m.lpmLocked = true) ∧ i < bootStartAddr then m.noise i
  else m.flash.cells i

/-- `pgm_read_word`: the byte at the address is the low one. -/
def pgmReadWord : UInt16 := ofBytes (m.pgmReadByte address) (m.pgmReadByte (address + 1))

/-- The read-while-write section is off after `spm` on one of its pages. -/
def busyAfter : Bool := m.rwwBusy || decide (address % flashSize < bootStartAddr)

/-- `boot_page_erase` and the wait for it. -/
def bootPageErase : AvrMemory :=
  if m.spmLocked address = true then m
  else
    { m with
      flash := erasePage flashCells spmPagesize (address % flashSize) m.flash
      rwwBusy := m.busyAfter address }

/-- `boot_page_fill`. Bit 0 of the address is ignored. -/
def bootPageFill (data : UInt16) : AvrMemory :=
  { m with
    flash := fillWord (address % spmPagesize / 2 * 2) (lowByte data) (highByte data) m.flash }

/-- `boot_page_write` and the wait for it. -/
def bootPageWrite : AvrMemory :=
  if m.spmLocked address = true then m
  else
    { m with
      flash := writePage flashCells spmPagesize (address % flashSize) m.flash
      rwwBusy := m.busyAfter address }

/-- `boot_rww_enable`. What was loaded into the page buffer is lost. -/
def bootRwwEnable : AvrMemory := { m with flash := m.flash.dropBuffer, rwwBusy := false }

/-! ### EEPROM -/

/-- `eeprom_read_byte`. -/
def eepromReadByte : UInt8 := m.eeprom (address % eepromSize)

/-- `eeprom_write_byte`. What was loaded into the page buffer is lost. -/
def eepromWriteByte (data : UInt8) : AvrMemory :=
  { m with
    flash := m.flash.dropBuffer
    eeprom := Function.update m.eeprom (address % eepromSize) data }

/-- A part that was never programmed, with its page buffer empty as after every reset. -/
def erased : AvrMemory where
  flash := { cells := fun _ => 0xff, buffer := fun _ => none }
  rwwBusy := false
  noise := fun _ => 0
  eeprom := fun _ => 0xff
  lockBits := 0xff
  lowFuse := 0xff
  highFuse := 0xff
  extFuse := 0xff

end AvrMemory

end RfPirate
