/-
Module: RfPirate.Core.MenuEntry
Layer: Core
Purpose: `MenuEntry.cpp`: the entry types with what each constructor stores, and the operations of
  dropdown entries on the data they point to. The flag that an entry is selected changes at run time
  and is kept with the state of the menu.
Main exports: MenuEntry, DropdownT, DropMem, MenuEntry.initializeEntry, MenuEntry.increment,
  MenuEntry.decrement, MenuEntry.getText
-/
import RfPirate.Core.System
import RfPirate.Lib.CString
import Mathlib.Logic.Function.Basic

namespace RfPirate

open Lib Lib.CString

/-- Address of an array of menu entries. -/
abbrev MenuPtr := Nat

/-- Address of an `exec_fn`. -/
abbrev ExecFn := Nat

/-- Address of a `dropdown_t`. -/
abbrev DropPtr := Nat

/-- Address of the data of a dropdown: a number, or a table of strings. -/
abbrev DataPtr := Nat

/-! ### Types of dropdown menus -/

/-- The bit field `drop_type`. -/
abbrev DropType := Fin 8

def typeDropEnum : DropType := 1
def typeDropNum : DropType := 2

/-- A menu entry as its constructor leaves it: of the type of a dropdown, the three bits that fit
    its field. A NULL text is `none`. -/
inductive MenuEntry where
  | dummy (text : Option CStr)
  | branch (text : Option CStr) (next : MenuPtr)
  | exec (text : Option CStr) (exec : ExecFn)
  | evtHdl (text : Option CStr) (next : MenuPtr) (cb : Option EventNotifyCb)
  | dropdown (text : Option CStr) (d : DropPtr) (type : DropType)
deriving DecidableEq

namespace MenuEntry

def text : MenuEntry → Option CStr
  | dummy t => t
  | branch t _ => t
  | exec t _ => t
  | evtHdl t _ _ => t
  | dropdown t _ _ => t

def isDropdown : MenuEntry → Bool
  | dropdown _ _ _ => true
  | _ => false

/-- The submenu of a `TYPE_BRANCH` or `TYPE_EVT_HDL` entry. -/
def next? : MenuEntry → Option MenuPtr
  | branch _ next => some next
  | evtHdl _ next _ => some next
  | _ => none

/-- The callback of a `TYPE_EVT_HDL` entry, which may be NULL. -/
def evtHandler? : MenuEntry → Option (Option EventNotifyCb)
  | evtHdl _ _ cb => some cb
  | _ => none

end MenuEntry

/-! ### Dropdown operations -/

/-- The members of `dropdown_t` that the operations use. -/
structure DropdownT where
  data : DataPtr
  min : UInt16
  max : UInt16
  idx : UInt8
deriving DecidableEq, Repr

/-- The dropdowns, and the numbers that `TYPE_DROP_NUM` dropdowns point to. -/
structure DropMem where
  drops : DropPtr → DropdownT
  nums : DataPtr → UInt16

namespace DropMem

def setIdx (m : DropMem) (d : DropPtr) (idx : UInt8) : DropMem :=
  { m with drops := Function.update m.drops d { m.drops d with idx := idx } }

def setNum (m : DropMem) (d : DropPtr) (num : UInt16) : DropMem :=
  { m with nums := Function.update m.nums (m.drops d).data num }

/-- The number a `TYPE_DROP_NUM` dropdown points to. -/
def num (m : DropMem) (d : DropPtr) : UInt16 := m.nums (m.drops d).data

end DropMem

namespace MenuEntry

-- The operations have no effect on the two string types.

/-- `MenuEntry::initialize`. -/
def initializeEntry (e : MenuEntry) (m : DropMem) : DropMem :=
  match e with
  | dropdown _ d type =>
      let drop := m.drops d
      if type = typeDropEnum then
        if drop.idx.toUInt16 > drop.max then m.setIdx d drop.min.toUInt8 else m
      else if type = typeDropNum then
        if m.num d < drop.min ∨ m.num d > drop.max then m.setNum d drop.min else m
      else m
  | _ => m

/-- `MenuEntry::increment`. -/
def increment (e : MenuEntry) (m : DropMem) : DropMem :=
  match e with
  | dropdown _ d type =>
      let drop := m.drops d
      if type = typeDropEnum then
        if drop.idx.toUInt16 ≥ drop.max then m else m.setIdx d (drop.idx + 1)
      else if type = typeDropNum then
        if m.num d ≥ drop.max then m else m.setNum d (m.num d + 1)
      else m
  | _ => m

/-- `MenuEntry::decrement`. -/
def decrement (e : MenuEntry) (m : DropMem) : DropMem :=
  match e with
  | dropdown _ d type =>
      let drop := m.drops d
      if type = typeDropEnum then
        if drop.idx = 0 then m else m.setIdx d (drop.idx - 1)
      else if type = typeDropNum then
        if m.num d ≤ drop.min ∨ m.num d ≥ drop.max then m else m.setNum d (m.num d - 1)
      else m
  | _ => m

/-- The decimal digits `sprintf` prints for `%u`. -/
def decimal (n : Nat) : List UInt8 := (Nat.toDigits 10 n).map fun c => UInt8.ofNat c.toNat

/-- `MenuEntry::get_text`: the scratch buffer after the call, which is where the text is. The table
    of strings an enumeration points to is `enumText`. -/
def getText (e : MenuEntry) (enumText : DataPtr → Nat → CStr) (m : DropMem) (buf : Nat → UInt8) :
    Nat → UInt8 :=
  let sprintf (text : List UInt8) := storeStr (text.length + 1) text buf
  match e with
  | dropdown _ d type =>
      if type = typeDropEnum then sprintf (enumText (m.drops d).data (m.drops d).idx.toNat).bytes
      else if type = typeDropNum then sprintf (decimal (m.num d).toNat)
      else buf
  | _ => buf

end MenuEntry

end RfPirate
