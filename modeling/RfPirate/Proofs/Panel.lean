/-
Module: RfPirate.Proofs.Panel
Layer: Proofs
Purpose: The panel shows the character buffer. Every frame and every bitmap is 1024 bytes long, so
  the pointer is back at the first byte when the next one starts, and byte
  `128 * line + 6 * col + k` of a frame is column `k` of what was drawn last in the cell.
Main exports: Cell.encode, glyph, Shown, PanelInv, display_spec, panel_shows_buffer
-/
import RfPirate.Core.Panel
import RfPirate.Proofs.Ssd1306

namespace RfPirate

open Lib Lib.Machine Lib.Stream

/-! ### Cells and their bytes -/

namespace Cell

/-- The byte a cell is kept as. -/
def encode : Cell → UInt8
  | char c => c
  | icon j i => iconCell j i

/-- A character with a glyph, or a part of an icon with a number. -/
def Valid : Cell → Prop
  | char c => c < 0x80
  | icon j i => j < lcdMaxIcon ∧ i < 8

theorem valid_blank : (char 0).Valid := by
  show (0 : UInt8) < 0x80
  decide

end Cell

theorem char_flag {c : UInt8} (hc : c < 0x80) : c &&& lcdIconFlag = 0 := by
  have hall : ∀ n < 128, UInt8.ofNat n &&& lcdIconFlag = 0 := by decide
  simpa using hall c.toNat hc

/-- Flag, index and part of an icon cell. -/
theorem iconCell_fields : ∀ j < lcdMaxIcon, ∀ i < 8,
    iconCell j i &&& lcdIconFlag ≠ 0 ∧ ((iconCell j i >>> 3) &&& 0xf).toNat = j ∧
      (iconCell j i &&& 0x7).toNat = i := by decide

/-- Column `k` of what is drawn for a cell: a column of the font and a blank one, or the byte of the
    icon; a dollar sign for an icon that is not registered. -/
def glyph (icon : Icons) (bitmaps : IconBytes) : Cell → Nat → Option UInt8
  | .char c, k => if k = 5 then some 0 else font[5 * c.toNat + k]?
  | .icon j i, k =>
      match icon j with
      | none => if k = 5 then some 0 else font[5 * 36 + k]?
      | some cb => (bitmaps cb j)[6 * i + k]?

/-- The registered callbacks return 48 bytes. -/
def Bitmaps (icon : Icons) (bitmaps : IconBytes) : Prop :=
  ∀ j < lcdMaxIcon, ∀ cb ∈ icon j, 48 ≤ (bitmaps cb j).length

/-- Complemented for an inverted cell. -/
def invertIf (invert : Bool) (b : UInt8) : UInt8 := if invert then ~~~b else b

/-! ### The bytes of a frame -/

theorem drawSlices_spec {bm : List UInt8} {off : Nat} (iconFlag invert : Bool)
    (hlen : off + (if iconFlag then 6 else 5) ≤ bm.length) :
    ∃ xs, drawSlices bm off iconFlag invert = some xs ∧ xs.length = 6 ∧
      ∀ k < 6, xs[k]? =
        (if k = 5 && !iconFlag then some 0 else bm[off + k]?).map (invertIf invert) := by
  have hround : ∀ i < 6, ∃ b,
      (if i = 5 && !iconFlag then some 0 else bm[off + i]?) = some b := by
    intro i hi
    split
    · exact ⟨0, rfl⟩
    · rename_i hcol
      have hlt : off + i < bm.length := by
        cases iconFlag <;> simp at hlen hcol <;> omega
      exact ⟨bm[off + i], List.getElem?_eq_getElem hlt⟩
  obtain ⟨xs, hxs, hxslen, hitem⟩ := collect_spec (m := 1) (n := 6)
    (f := fun i => (if i = 5 && !iconFlag then some 0 else bm[off + i]?).map fun c =>
      [if invert then ~~~c else c])
    (fun i hi => by
      obtain ⟨b, hb⟩ := hround i hi
      exact ⟨[invertIf invert b], by rw [hb]; rfl, rfl⟩)
  refine ⟨xs, hxs, hxslen, fun k hk => ?_⟩
  obtain ⟨b, hb⟩ := hround k hk
  have hat := hitem k hk 0 Nat.one_pos [invertIf invert b] (by rw [hb]; rfl)
  rw [Nat.one_mul, Nat.add_zero] at hat
  rw [hat, hb]
  rfl

section Frame

variable {icon : Icons} {bitmaps : IconBytes} {d : Ssd1306} {line : Nat}

/-- The six bytes of a cell. -/
theorem displayCell_spec (hbitmaps : Bitmaps icon bitmaps) {idx : Nat} {c : Cell}
    (hvalid : c.Valid) (hcell : d.buf (cell line idx) = c.encode) :
    ∃ xs, displayCell icon bitmaps d line idx = some xs ∧ xs.length = 6 ∧
      ∀ k < 6, xs[k]? = (glyph icon bitmaps c k).map (invertIf (invBit d line idx)) := by
  cases c with
  | char c =>
      have hc : c < 0x80 := hvalid
      have hcell' : d.buf (cell line idx) = c := hcell
      have hroom : c.toNat * 5 + 5 ≤ font.length := by
        rw [font_length]
        have hlt : c.toNat < 128 := hc
        omega
      obtain ⟨xs, hxs, hlen, hitem⟩ := drawSlices_spec false (invBit d line idx) hroom
      refine ⟨xs, ?_, hlen, fun k hk => ?_⟩
      · simp only [displayCell, hcell', char_flag hc, ne_eq, not_true_eq_false, if_false]
        exact hxs
      · rw [hitem k hk, glyph, Nat.mul_comm]
        simp
  | icon j i =>
      obtain ⟨hj, hi⟩ : j < lcdMaxIcon ∧ i < 8 := hvalid
      have hcell' : d.buf (cell line idx) = iconCell j i := hcell
      obtain ⟨hflag, hidx, hpart⟩ := iconCell_fields j hj i hi
      have hmax : ¬ j ≥ lcdMaxIcon := Nat.not_le.mpr hj
      cases hreg : icon j with
      | none =>
          have hroom : 36 * 5 + 5 ≤ font.length := by
            rw [font_length]
            omega
          obtain ⟨xs, hxs, hlen, hitem⟩ := drawSlices_spec false (invBit d line idx) hroom
          refine ⟨xs, ?_, hlen, fun k hk => ?_⟩
          · simp only [displayCell, hcell', hflag, hidx, hreg, ne_eq, not_false_eq_true, if_true,
              if_neg hmax]
            exact hxs
          · rw [hitem k hk]
            simp [glyph, hreg]
      | some cb =>
          have hroom : i * 6 + 6 ≤ (bitmaps cb j).length := by
            have hlen := hbitmaps j hj cb hreg
            omega
          obtain ⟨xs, hxs, hlen, hitem⟩ := drawSlices_spec true (invBit d line idx) hroom
          refine ⟨xs, ?_, hlen, fun k hk => ?_⟩
          · simp only [displayCell, hcell', hflag, hidx, hreg, hpart, ne_eq, not_false_eq_true,
              if_true, if_neg hmax]
            exact hxs
          · rw [hitem k hk, Nat.mul_comm i 6]
            simp [glyph, hreg]

/-- Cells of a grid that the buffer encodes. -/
def Encodes (d : Ssd1306) (cells : Nat → Nat → Cell) : Prop :=
  ∀ l < lcdCharLines, ∀ y < lcdCharPerLine,
    (cells l y).Valid ∧ d.buf (cell l y) = (cells l y).encode

/-- What the bytes `xs` show on a line. -/
def LineShown (icon : Icons) (bitmaps : IconBytes) (d : Ssd1306)
    (cells : Nat → Nat → Cell) (line : Nat) (xs : Nat → Option UInt8) : Prop :=
  (∀ col < lcdCharPerLine, ∀ k < 6, xs (6 * col + k) =
    (glyph icon bitmaps (cells line col) k).map (invertIf (invBit d line col))) ∧
  xs 126 = some 0 ∧ xs 127 = some 0

/-- The 128 bytes of a line. -/
theorem displayLine_spec (hbitmaps : Bitmaps icon bitmaps) {cells : Nat → Nat → Cell}
    (hcells : Encodes d cells) (hline : line < lcdCharLines) :
    ∃ xs, displayLine icon bitmaps d line = some xs ∧ xs.length = 128 ∧
      LineShown icon bitmaps d cells line (fun a => xs[a]?) := by
  have hspec : ∀ col < lcdCharPerLine, ∃ xs, displayCell icon bitmaps d line col = some xs ∧
      xs.length = 6 ∧ ∀ k < 6, xs[k]? =
        (glyph icon bitmaps (cells line col) k).map (invertIf (invBit d line col)) :=
    fun col hcol => displayCell_spec hbitmaps (hcells line hline col hcol).1
      (hcells line hline col hcol).2
  obtain ⟨xs, hxs, hlen, hitem⟩ := collect_spec (m := 6) fun col hcol => by
    obtain ⟨ys, hys, hyslen, -⟩ := hspec col hcol
    exact ⟨ys, hys, hyslen⟩
  have hlen' : xs.length = 126 := hlen
  refine ⟨xs ++ [0, 0], by rw [displayLine, hxs]; rfl, by simp [hlen'], ?_, ?_, ?_⟩
  · intro col hcol k hk
    obtain ⟨ys, hys, -, hysitem⟩ := hspec col hcol
    have hlt : 6 * col + k < xs.length := by
      have hcol' : col < 21 := hcol
      omega
    show (xs ++ [0, 0])[6 * col + k]? = _
    rw [List.getElem?_append_left hlt, hitem col hcol k hk ys hys, hysitem k hk]
  · show (xs ++ [0, 0])[126]? = some 0
    simp [hlen']
  · show (xs ++ [0, 0])[127]? = some 0
    simp [hlen']

/-- The 1024 bytes of a frame. -/
theorem display_spec (hbitmaps : Bitmaps icon bitmaps) {cells : Nat → Nat → Cell}
    (hcells : Encodes d cells) :
    ∃ bytes : List UInt8, display icon bitmaps d = some (rasterTopLeft ++ bytes.map .data) ∧
      bytes.length = 1024 ∧ ∀ line < lcdCharLines,
        LineShown icon bitmaps d cells line (fun a => bytes[128 * line + a]?) := by
  have hspec : ∀ line < lcdCharLines, ∃ xs, displayLine icon bitmaps d line = some xs ∧
      xs.length = 128 ∧ LineShown icon bitmaps d cells line (fun a => xs[a]?) :=
    fun line hline => displayLine_spec hbitmaps hcells hline
  obtain ⟨bytes, hbytes, hlen, hitem⟩ := collect_spec (m := 128) fun line hline => by
    obtain ⟨xs, hxs, hxslen, -⟩ := hspec line hline
    exact ⟨xs, hxs, hxslen⟩
  refine ⟨bytes, by rw [display, hbytes]; rfl, hlen, fun line hline => ?_⟩
  obtain ⟨xs, hxs, -, hcells', h126, h127⟩ := hspec line hline
  refine ⟨fun col hcol k hk => ?_, ?_, ?_⟩
  · have hcol' : col < 21 := hcol
    show bytes[128 * line + (6 * col + k)]? = _
    rw [hitem line hline (6 * col + k) (by omega) xs hxs]
    exact hcells' col hcol k hk
  · exact (hitem line hline 126 (by omega) xs hxs).trans h126
  · exact (hitem line hline 127 (by omega) xs hxs).trans h127

end Frame

/-! ### The panel over a run -/

/-- Data bytes go through the pointer. -/
theorem receive_data (bytes : List UInt8) (p : Panel) :
    (bytes.map PanelByte.data).foldl Panel.receive p =
      { ram := (writeAll 1024 bytes (p.ram, p.ptr)).1
        ptr := (writeAll 1024 bytes (p.ram, p.ptr)).2 } := by
  induction bytes generalizing p with
  | nil => rfl
  | cons b bytes ih => exact ih _

/-- A full RAM of data bytes, after commands that move nothing. -/
theorem receive_frame {bytes : List UInt8} (hlen : bytes.length = 1024) {p : Panel}
    (hptr : p.ptr = 0) :
    ((rasterTopLeft ++ bytes.map PanelByte.data).foldl Panel.receive p).ptr = 0 ∧
    ∀ a < 1024, some (((rasterTopLeft ++ bytes.map PanelByte.data).foldl Panel.receive p).ram a) =
      bytes[a]? := by
  have hcommands : (rasterTopLeft ++ bytes.map PanelByte.data).foldl Panel.receive p =
      (bytes.map PanelByte.data).foldl Panel.receive p := by
    rw [List.foldl_append]
    rfl
  rw [hcommands, receive_data, hptr]
  obtain ⟨hend, -, hitems⟩ := @writeAll_spec _ 1024 bytes p.ram 0 (by omega) (by omega)
  refine ⟨by rw [hend, hlen], fun a ha => ?_⟩
  have hget : bytes[a]? = some bytes[a] := List.getElem?_eq_getElem (by omega)
  have hat := hitems a _ hget
  rw [Nat.zero_add] at hat
  rw [hget, ← hat]

/-- The calls of a program that stays on the grid, with characters of the font, bitmaps of the
    panel's size, and 48 bytes from each callback that is registered. -/
def OledCall.InRange (s : OledState) : OledCall → Prop
  | .clear => True
  | .clearline line => line < lcdCharLines
  | .drawstring line _ c _ => line < lcdCharLines ∧ ∀ b ∈ c, b < 0x80
  | .drawicon _ line _ _ => line < lcdCharLines
  | .registericon _ _ => True
  | .drawbitmap bitmap w h => w = lcdWidth → h = lcdHeight → 1024 ≤ bitmap.length
  | .display bitmaps => Bitmaps s.icon bitmaps

instance Bitmaps.decidable (icon : Icons) (bitmaps : IconBytes) :
    Decidable (Bitmaps icon bitmaps) :=
  inferInstanceAs (Decidable (∀ j < lcdMaxIcon, ∀ cb ∈ icon j, _))

instance OledCall.InRange.decidable (s : OledState) : ∀ call, Decidable (OledCall.InRange s call)
  | .clear => instDecidableTrue
  | .clearline _ => inferInstanceAs (Decidable (_ < _))
  | .drawstring _ _ _ _ => inferInstanceAs (Decidable (_ ∧ _))
  | .drawicon _ _ _ _ => inferInstanceAs (Decidable (_ < _))
  | .registericon _ _ => instDecidableTrue
  | .drawbitmap _ _ _ => inferInstanceAs (Decidable (_ → _ → _ ≤ _))
  | .display bitmaps => Bitmaps.decidable s.icon bitmaps

/-- The panel shows, on each line, column `k` of what was drawn last in each cell, complemented
    where the invert bit is set, and two blank bytes at the end. -/
def Shown (s : OledState) (bitmaps : IconBytes) : Prop :=
  ∀ line < lcdCharLines,
    (∀ col < lcdCharPerLine, ∀ k < 6, some (s.panel.ram (128 * line + 6 * col + k)) =
      (glyph s.icon bitmaps (s.cells line col) k).map (invertIf (invBit s.oled line col))) ∧
    s.panel.ram (128 * line + 126) = 0 ∧ s.panel.ram (128 * line + 127) = 0

/-- A frame is drawn without a read outside of a table, and the panel shows the cells after it. -/
def PanelLaw (s : OledState) (call : OledCall) : Prop :=
  ∀ bitmaps, call = .display bitmaps →
    ∃ s₁ o, oledStep s call = some (s₁, o) ∧ Shown s₁ bitmaps

/-- The next frame starts at the first byte, and the buffer holds what was drawn. -/
structure PanelInv (s : OledState) : Prop where
  ptr : s.panel.ptr = 0
  cells : Encodes s.oled s.cells

namespace PanelInv

variable {s s₁ : OledState} {call : OledCall} {o : List PanelByte}

theorem init (ram : Nat → UInt8) : PanelInv (.init ram) :=
  ⟨rfl, fun _ _ _ _ => ⟨Cell.valid_blank, rfl⟩⟩

/-- What a call draws is what it places. -/
theorem draw (h : Encodes s.oled s.cells) (hcall : call.InRange s) :
    Encodes (call.draw s.oled) (call.place s.cells) := by
  intro l hl y hy
  obtain ⟨hvalid, hcell⟩ := h l hl y hy
  cases call with
  | clear => exact ⟨Cell.valid_blank, clear_cell s.oled hl hy⟩
  | clearline line =>
      simp only [OledCall.draw, OledCall.place, clearline_cell s.oled line hy]
      split
      · exact ⟨Cell.valid_blank, rfl⟩
      · exact ⟨hvalid, hcell⟩
  | drawstring line x c invert =>
      obtain ⟨hline, hchars⟩ : line < lcdCharLines ∧ ∀ b ∈ c, b < 0x80 := hcall
      simp only [OledCall.draw, OledCall.place, drawstring_cell s.oled c invert hline hy]
      by_cases hcov : Covers line x c.length l y
      · have hcov' : l = line ∧ x ≤ y ∧ y - x < c.length := hcov
        have hmem : c.getD (y - x) 0 ∈ c := by
          rw [List.getD_eq_getElem?_getD, List.getElem?_eq_getElem hcov'.2.2]
          exact List.getElem_mem _
        simp only [if_pos hcov, if_pos hcov']
        exact ⟨hchars _ hmem, rfl⟩
      · have hcov' : ¬ (l = line ∧ x ≤ y ∧ y - x < c.length) := hcov
        simp only [if_neg hcov, if_neg hcov']
        exact ⟨hvalid, hcell⟩
  | drawicon idx line x width =>
      have hiff : (idx < lcdMaxIcon ∧ width ≤ 8 ∧ x + width ≤ lcdCharPerLine ∧ l = line ∧ x ≤ y ∧
            y < x + width) ↔
          (idx < lcdMaxIcon ∧ width ≤ 8 ∧ x + width ≤ lcdCharPerLine ∧
            Covers line x width l y) := by
        simp only [Covers]
        omega
      simp only [OledCall.draw, OledCall.place, drawicon_cell s.oled idx line width hy, hiff]
      split
      · rename_i hfit
        obtain ⟨hidx, hwidth, -, hcov⟩ := hfit
        have hpart : y - x < 8 := by
          have := hcov.2.2
          omega
        exact ⟨⟨hidx, hpart⟩, rfl⟩
      · exact ⟨hvalid, hcell⟩
  | registericon index cb => exact ⟨hvalid, hcell⟩
  | drawbitmap bitmap w h => exact ⟨hvalid, hcell⟩
  | display bitmaps => exact ⟨hvalid, hcell⟩

theorem display_shown (h : PanelInv s) {bitmaps : IconBytes}
    (hcall : (OledCall.display bitmaps).InRange s) :
    ∃ s₁ o, oledStep s (.display bitmaps) = some (s₁, o) ∧ s₁.panel.ptr = 0 ∧
      Shown s₁ bitmaps := by
  obtain ⟨bytes, hbytes, hlen, hlines⟩ := display_spec hcall h.cells
  obtain ⟨hptr, hram⟩ := receive_frame hlen h.ptr
  refine ⟨_, _, by rw [oledStep, OledCall.bytes, hbytes]; rfl, hptr, fun line hline => ?_⟩
  obtain ⟨hcells, h126, h127⟩ := hlines line hline
  have hline' : line < 8 := hline
  refine ⟨fun col hcol k hk => ?_, ?_, ?_⟩
  · have hcol' : col < 21 := hcol
    have hram' := hram (128 * line + (6 * col + k)) (by omega)
    rw [← Nat.add_assoc] at hram'
    exact (hram'.trans (by rw [Nat.add_assoc])).trans (hcells col hcol k hk)
  · exact Option.some.inj ((hram _ (by omega)).trans h126)
  · exact Option.some.inj ((hram _ (by omega)).trans h127)

theorem bitmap_ptr (h : PanelInv s) {bitmap : List UInt8} {w hgt : Nat}
    (hcall : (OledCall.drawbitmap bitmap w hgt).InRange s)
    (hbytes : drawbitmap bitmap w hgt = some o) : (o.foldl Panel.receive s.panel).ptr = 0 := by
  rw [drawbitmap] at hbytes
  split at hbytes
  · cases hbytes
    exact h.ptr
  · rename_i hsize
    have hlen : 1024 ≤ bitmap.length := hcall (by omega) (by omega)
    obtain ⟨bytes, hcollect, hbyteslen, -⟩ := collect_spec (m := 1) (n := 1024)
      (f := fun i => bitmap[i]?.map ([·]))
      (fun i hi => ⟨[bitmap[i]], by rw [List.getElem?_eq_getElem (by omega)]; rfl, rfl⟩)
    rw [hcollect] at hbytes
    cases hbytes
    exact (receive_frame hbyteslen h.ptr).1

theorem step (h : PanelInv s) (hcall : call.InRange s) (hstep : oledStep s call = some (s₁, o)) :
    PanelInv s₁ := by
  obtain ⟨bytes, hbytes, heq⟩ := Option.map_eq_some_iff.mp hstep
  cases heq
  refine ⟨?_, draw h.cells hcall⟩
  cases call with
  | clear | clearline line | drawstring line x c invert | drawicon idx line x width
  | registericon index cb =>
      cases hbytes
      exact h.ptr
  | drawbitmap bitmap w hgt => exact h.bitmap_ptr hcall hbytes
  | display bitmaps =>
      obtain ⟨s₁, o₁, hstep₁, hptr, -⟩ := h.display_shown hcall
      have hsame := hstep.symm.trans hstep₁
      cases hsame
      exact hptr

end PanelInv

/-- For every sequence of calls in range from the zeroed object: each `display` reads inside of its
    tables only, and after it the panel shows what was drawn last in every cell. -/
theorem panel_shows_buffer (ram : Nat → UInt8) {calls : List OledCall}
    (hcalls : Guarded oledStep OledCall.InRange (.init ram) calls) :
    Guarded oledStep PanelLaw (.init ram) calls := by
  have hlaw : ∀ s call, PanelInv s → call.InRange s → PanelLaw s call := by
    rintro s call h hcall bitmaps rfl
    obtain ⟨s₁, o, hstep, -, hshown⟩ := h.display_shown hcall
    exact ⟨s₁, o, hstep, hshown⟩
  exact Guarded.imp hlaw (fun _ _ _ _ h hcall hstep => h.step hcall hstep) (PanelInv.init ram)
    hcalls

/-- The battery icon of `ui_setup` beside an inverted string, over a panel full of ones. -/
theorem panel_shows_buffer_battery :
    Guarded oledStep PanelLaw (.init fun _ => 0xff)
      [.registericon 0 (some 1), .drawstring 0 0 [72, 105] true, .drawicon 0 7 19 2,
        .display fun _ _ => List.replicate 48 0x3c] :=
  panel_shows_buffer _ (by decide +kernel)

end RfPirate
