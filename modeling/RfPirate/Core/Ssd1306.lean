/-
Module: RfPirate.Core.Ssd1306
Layer: Core
Purpose: The character buffer of `ssd1306.cpp` and the functions that draw into it. Cell `x` of
  line `line` is byte `21 * line + x` from the start of `buf`; a byte behind the 168 of the buffer
  is memory behind it. What goes to the panel is not part of the state.
Main exports: Ssd1306, clear, clearline, drawstring, drawicon
-/
import Mathlib.Logic.Function.Basic

namespace RfPirate

def lcdCharLines : Nat := 8
def lcdCharPerLine : Nat := 21

/-- `buf` and `invert_mask` of the display object. -/
structure Ssd1306 where
  buf : Nat → UInt8
  invertMask : Nat → UInt8

/-- The byte offset of `buf[line][x]`. -/
def cell (line x : Nat) : Nat := lcdCharPerLine * line + x

/-- `1 << line`, as it is combined with a byte. -/
def lineBit (line : Nat) : UInt8 := UInt8.ofNat (1 <<< line)

/-- The object in zeroed static storage. -/
def Ssd1306.zero : Ssd1306 := { buf := fun _ => 0, invertMask := fun _ => 0 }

/-- `ssd1306::clear`. -/
def clear (d : Ssd1306) : Ssd1306 :=
  { buf := fun a => if a < cell lcdCharLines 0 then 0 else d.buf a
    invertMask := fun c => if c < lcdCharPerLine then 0 else d.invertMask c }

/-- `ssd1306::clearline`. -/
def clearline (d : Ssd1306) (line : Nat) : Ssd1306 :=
  { buf := fun a =>
      if cell line 0 ≤ a ∧ a < cell line lcdCharPerLine then 0 else d.buf a
    invertMask := fun c =>
      if c < lcdCharPerLine then d.invertMask c &&& ~~~ lineBit line else d.invertMask c }

/-- The body of the `while` loop of `drawstring`. -/
def drawChar (d : Ssd1306) (line x : Nat) (c : UInt8) (invert : Bool) : Ssd1306 :=
  { buf := Function.update d.buf (cell line x) c
    invertMask :=
      if invert then Function.update d.invertMask x (d.invertMask x ||| lineBit line)
      else d.invertMask }

/-- The `while` loop of `drawstring` over the rest of the string. It is left at the end of the line,
    and behind the first character on a line outside the grid. -/
def drawLoop (line : Nat) (invert : Bool) : Nat → List UInt8 → Ssd1306 → Ssd1306
  | _, [], d => d
  | x, c :: cs, d =>
      let d' := drawChar d line x c invert
      if x + 1 ≥ lcdCharPerLine then d'
      else if line ≥ lcdCharLines then d'
      else drawLoop line invert (x + 1) cs d'

/-- `ssd1306::drawstring` of a NUL-terminated string. -/
def drawstring (d : Ssd1306) (line x : Nat) (c : List UInt8) (invert : Bool) : Ssd1306 :=
  if x ≥ lcdCharPerLine then d else drawLoop line invert x c d

/-! ### Icons in the buffer -/

def lcdMaxIcon : Nat := 5
def lcdIconFlag : UInt8 := 0x80

/-- `LCD_ICON_FLAG | (idx << 3) | i`, as it is stored in a cell. -/
def iconCell (idx i : Nat) : UInt8 := lcdIconFlag ||| UInt8.ofNat (idx <<< 3 ||| i)

/-- The `for` loop of `drawicon`: the first `n` parts. -/
def drawiconLoop (idx line x : Nat) : Nat → Ssd1306 → Ssd1306
  | 0, d => d
  | n + 1, d =>
      let d := drawiconLoop idx line x n d
      { buf := Function.update d.buf (cell line (x + n)) (iconCell idx n)
        invertMask :=
          Function.update d.invertMask (x + n) (d.invertMask (x + n) &&& ~~~ lineBit line) }

/-- `ssd1306::drawicon`. -/
def drawicon (d : Ssd1306) (idx line x width : Nat) : Ssd1306 :=
  if x ≥ lcdCharPerLine then d
  else if idx ≥ lcdMaxIcon then d
  else if width > 8 ∨ (x : Int) + width - 1 ≥ lcdCharPerLine then d
  else drawiconLoop idx line x width d

end RfPirate
