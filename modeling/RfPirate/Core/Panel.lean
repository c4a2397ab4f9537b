/-
Module: RfPirate.Core.Panel
Layer: Core
Purpose: How `ssd1306.cpp` draws the character buffer on the panel, and the panel: in the horizontal
  addressing mode that `init` sets, data bytes fill its RAM from a pointer that wraps, and the
  column and start line commands do not move it. What the icon callbacks return is an input of the
  display call, as a function of the callback and of the index it is called with; the last drawing
  of each cell is kept as a history.
Main exports: Icons, IconBytes, registericon, display, drawbitmap, Panel, Cell, OledCall, OledState,
  oledStep
-/
import RfPirate.Core.Glcdfont
import RfPirate.Core.Ssd1306
import RfPirate.Lib.Machine
import RfPirate.Lib.Stream

namespace RfPirate

open Lib Lib.Stream

def lcdWidth : Nat := 128
def lcdHeight : Nat := 64

/-! ### Commands -/

def ssd1306SetLowColumn : UInt8 := 0x00
def ssd1306SetHighColumn : UInt8 := 0x10
def ssd1306SetStartLine : UInt8 := 0x40

/-- A byte sent by `ssd1306_command` or by `ssd1306_data`. -/
inductive PanelByte where
  | command (c : UInt8)
  | data (c : UInt8)
deriving DecidableEq, Repr

/-- The commands before a frame: raster from top left. -/
def rasterTopLeft : List PanelByte :=
  [.command (ssd1306SetLowColumn ||| 0x0), .command (ssd1306SetHighColumn ||| 0x0),
    .command (ssd1306SetStartLine ||| 0x0)]

/-! ### Icons -/

/-- Address of an `icon_cb_t` function. -/
abbrev IconCb := Nat

/-- The array `icon`. -/
abbrev Icons := Nat → Option IconCb

/-- What the callback at an address returns for an index. -/
abbrev IconBytes := IconCb → Nat → List UInt8

/-- `ssd1306::registericon`. -/
def registericon (icon : Icons) (index : Nat) (cb : Option IconCb) : Icons :=
  if index ≥ lcdMaxIcon then icon else Function.update icon index cb

/-! ### Frames -/

/-- The slices of a character: six bytes from `bm[off]`, or five of them and a blank one. `none`
    when a byte outside of `bm` is read. -/
def drawSlices (bm : List UInt8) (off : Nat) (iconFlag invert : Bool) : Option (List UInt8) :=
  collect (fun i =>
    (if i = 5 && !iconFlag then some 0 else bm[off + i]?).map fun c =>
      [if invert then ~~~c else c]) 6

section Display

variable (icon : Icons) (bitmaps : IconBytes) (d : Ssd1306)

/-- The body of the inner loop of `display`. -/
def displayCell (line idx : Nat) : Option (List UInt8) :=
  let c := d.buf (cell line idx)
  let invert := d.invertMask idx &&& lineBit line ≠ 0
  if c &&& lcdIconFlag ≠ 0 then
    let j := ((c >>> 3) &&& 0xf).toNat
    if j ≥ lcdMaxIcon then drawSlices font (36 * 5) false invert
    else
      match icon j with
      | none => drawSlices font (36 * 5) false invert
      | some cb => drawSlices (bitmaps cb j) ((c &&& 0x7).toNat * 6) true invert
  else drawSlices font (c.toNat * 5) false invert

/-- The body of the outer loop: 21 chars per line of 6 bytes, and 2 null bytes to round out the
    line. -/
def displayLine (line : Nat) : Option (List UInt8) :=
  (collect (displayCell icon bitmaps d line) lcdCharPerLine).map (· ++ [0, 0])

/-- `ssd1306::display`: the bytes it sends. -/
def display : Option (List PanelByte) :=
  (collect (displayLine icon bitmaps d) lcdCharLines).map fun bytes =>
    rasterTopLeft ++ bytes.map .data

end Display

/-- `ssd1306::drawbitmap`: the bytes it sends. -/
def drawbitmap (bitmap : List UInt8) (w h : Nat) : Option (List PanelByte) :=
  if w ≠ lcdWidth ∨ h ≠ lcdHeight then some []
  else
    (collect (fun i => bitmap[i]?.map ([·])) 1024).map fun bytes =>
      rasterTopLeft ++ bytes.map .data

/-! ### The panel -/

/-- The RAM of the panel and its pointer. -/
structure Panel where
  ram : Nat → UInt8
  ptr : Nat

/-- The panel after a byte. Of the commands only those of `rasterTopLeft` are sent. -/
def Panel.receive (p : Panel) : PanelByte → Panel
  | .command _ => p
  | .data c => { ram := Function.update p.ram p.ptr c, ptr := (p.ptr + 1) % 1024 }

/-! ### Calls -/

/-- What was drawn last in a cell: a character, or part `i` of icon `j`. -/
inductive Cell where
  | char (c : UInt8)
  | icon (j i : Nat)
deriving DecidableEq, Repr

inductive OledCall where
  | clear
  | clearline (line : Nat)
  | drawstring (line x : Nat) (c : List UInt8) (invert : Bool)
  | drawicon (idx line x width : Nat)
  | registericon (index : Nat) (cb : Option IconCb)
  | drawbitmap (bitmap : List UInt8) (w h : Nat)
  | display (bitmaps : IconBytes)

/-- The display object, the icons, the panel, and the history of the cells. -/
structure OledState where
  oled : Ssd1306
  icon : Icons
  panel : Panel
  cells : Nat → Nat → Cell

/-- The cells after a call. -/
def OledCall.place (cells : Nat → Nat → Cell) : OledCall → Nat → Nat → Cell
  | .clear => fun _ _ => .char 0
  | .clearline line => fun l x => if l = line then .char 0 else cells l x
  | .drawstring line x c _ => fun l y =>
      if l = line ∧ x ≤ y ∧ y - x < c.length then .char (c.getD (y - x) 0) else cells l y
  | .drawicon idx line x width => fun l y =>
      if idx < lcdMaxIcon ∧ width ≤ 8 ∧ x + width ≤ lcdCharPerLine ∧ l = line ∧ x ≤ y ∧
          y < x + width
      then .icon idx (y - x) else cells l y
  | _ => cells

/-- The bytes a call sends. -/
def OledCall.bytes (s : OledState) : OledCall → Option (List PanelByte)
  | .drawbitmap bitmap w h => RfPirate.drawbitmap bitmap w h
  | .display bitmaps => RfPirate.display s.icon bitmaps s.oled
  | _ => some []

/-- What a call does to the display object. -/
def OledCall.draw (d : Ssd1306) : OledCall → Ssd1306
  | .clear => RfPirate.clear d
  | .clearline line => RfPirate.clearline d line
  | .drawstring line x c invert => RfPirate.drawstring d line x c invert
  | .drawicon idx line x width => RfPirate.drawicon d idx line x width
  | _ => d

/-- The icons after a call. -/
def OledCall.icons (icon : Icons) : OledCall → Icons
  | .registericon index cb => RfPirate.registericon icon index cb
  | _ => icon

/-- Each call with the bytes it sends. A call that reads outside of a table has no step. -/
def oledStep : Machine.Step OledState OledCall PanelByte
  | s, call =>
      (call.bytes s).map fun bytes =>
        ({ oled := call.draw s.oled
           icon := call.icons s.icon
           panel := bytes.foldl Panel.receive s.panel
           cells := call.place s.cells }, bytes)

/-- The zeroed object after the constructor, before a panel whose pointer is at 0. -/
def OledState.init (ram : Nat → UInt8) : OledState :=
  { oled := .zero, icon := fun _ => none, panel := { ram := ram, ptr := 0 }
    cells := fun _ _ => .char 0 }

end RfPirate
