/-
Module: RfPirate.Proofs.Drawing
Layer: Proofs
Purpose: Which memory the drawing functions write. `drawstring` tests the line behind its first
  character and the others not at all, so a line outside the grid is written to; and `drawstring`
  sets invert bits but does not clear them.
Main exports: DrawCall, DrawCall.InGrid, DrawCall.inGrid_iff, Looks, drawstring_looks_iff
-/
import RfPirate.Proofs.Ssd1306
import RfPirate.Lib.CString

namespace RfPirate

open Lib Lib.Bytes

/-! ### All of the memory -/

/-- Every byte of the buffer, and behind it, is a cell of some line. -/
theorem cell_div_mod (a : Nat) : cell (a / lcdCharPerLine) (a % lcdCharPerLine) = a :=
  Nat.div_add_mod a lcdCharPerLine

theorem mod_lt_charPerLine (a : Nat) : a % lcdCharPerLine < lcdCharPerLine :=
  Nat.mod_lt a (by decide)

/-- The columns that a string of `n` characters at `x` gets to. -/
def OnColumn (x n c : Nat) : Prop := x ≤ c ∧ c < lcdCharPerLine ∧ c - x < n
deriving Decidable

theorem onColumn_succ {x n c : Nat} (hx : x < lcdCharPerLine) :
    OnColumn x (n + 1) c ↔ c = x ∨ OnColumn (x + 1) n c := by
  simp only [OnColumn]
  omega

theorem not_onColumn_of_ge {x n c : Nat} (hx : lcdCharPerLine ≤ x) : ¬ OnColumn x n c := by
  simp only [OnColumn]
  omega

section Memory

variable (d : Ssd1306) {line x : Nat}

theorem drawChar_mask (ch : UInt8) (invert : Bool) (c : Nat) :
    (drawChar d line x ch invert).invertMask c =
      if invert = true ∧ c = x then d.invertMask c ||| lineBit line else d.invertMask c := by
  cases invert with
  | false => simp [drawChar]
  | true =>
      simp only [drawChar, if_true, Function.update_apply, true_and]
      split
      · rename_i hcx
        rw [hcx]
      · rfl

/-- The masks after a string, those outside the grid too. -/
theorem drawstring_mask (cs : List UInt8) (invert : Bool) (hline : line < lcdCharLines) (c : Nat) :
    (drawstring d line x cs invert).invertMask c =
      if invert = true ∧ OnColumn x cs.length c then d.invertMask c ||| lineBit line
      else d.invertMask c := by
  rw [drawstring]
  split
  · rename_i hx
    rw [if_neg fun h => not_onColumn_of_ge hx h.2]
  · rename_i hx
    induction cs generalizing x d with
    | nil => simp [drawLoop, OnColumn]
    | cons ch cs ih =>
        have hrest : (drawLoop line invert x (ch :: cs) d).invertMask c =
            if invert = true ∧ OnColumn (x + 1) cs.length c then
              (drawChar d line x ch invert).invertMask c ||| lineBit line
            else (drawChar d line x ch invert).invertMask c := by
          rw [drawLoop]
          by_cases hend : x + 1 ≥ lcdCharPerLine
          · have hout : ¬ (invert = true ∧ OnColumn (x + 1) cs.length c) :=
              fun h => not_onColumn_of_ge hend h.2
            simp only [hend, if_true, hout, if_false]
          · have hroom : ¬ line ≥ lcdCharLines := Nat.not_le_of_lt hline
            simp only [hend, if_false, hroom]
            exact ih _ hend
        have hx' : x < lcdCharPerLine := by omega
        rw [hrest, drawChar_mask, List.length_cons]
        by_cases hcx : c = x
        · subst hcx
          have hat : OnColumn c (cs.length + 1) c := (onColumn_succ hx').mpr (.inl rfl)
          have hbehind : ¬ OnColumn (c + 1) cs.length c := fun h => Nat.not_succ_le_self c h.1
          simp only [hat, hbehind, and_true, and_false, if_false]
        · have hbehind : OnColumn x (cs.length + 1) c ↔ OnColumn (x + 1) cs.length c :=
            (onColumn_succ hx').trans (or_iff_right hcx)
          simp only [hbehind, hcx, and_false, if_false]

theorem drawicon_mask (idx line n : Nat) (c : Nat) :
    (drawiconLoop idx line x n d).invertMask c =
      if x ≤ c ∧ c < x + n then d.invertMask c &&& ~~~lineBit line else d.invertMask c := by
  induction n with
  | zero =>
      rw [if_neg (by omega)]
      rfl
  | succ n ih =>
      simp only [drawiconLoop, Function.update_apply]
      by_cases hlast : c = x + n
      · have hfirst : (drawiconLoop idx line x n d).invertMask (x + n) = d.invertMask (x + n) := by
          rw [← hlast, ih, if_neg (by omega)]
        rw [if_pos hlast, if_pos (by omega), hfirst, hlast]
      · have hin : (x ≤ c ∧ c < x + (n + 1)) ↔ (x ≤ c ∧ c < x + n) := by omega
        simp only [hlast, if_false, ih, hin]

end Memory

/-! ### Staying inside the grid -/

/-- A call that draws at a place. -/
inductive DrawCall where
  | drawstring (line x : UInt8) (c : CStr) (invert : Bool)
  | drawicon (idx line x width : UInt8)
  | clearline (line : UInt8)

namespace DrawCall

def draw (d : Ssd1306) : DrawCall → Ssd1306
  | .drawstring line x c invert => RfPirate.drawstring d line.toNat x.toNat c.bytes invert
  | .drawicon idx line x width => RfPirate.drawicon d idx.toNat line.toNat x.toNat width.toNat
  | .clearline line => RfPirate.clearline d line.toNat

def line : DrawCall → Nat
  | .drawstring line _ _ _ => line.toNat
  | .drawicon _ line _ _ => line.toNat
  | .clearline line => line.toNat

/-- The column the call starts at. -/
def column : DrawCall → Nat
  | .drawstring _ x _ _ => x.toNat
  | .drawicon _ _ x _ => x.toNat
  | .clearline _ => 0

/-- What the call changes on `d` are cells of its line from its column on, within the grid, and the
    bit of the line in the masks of these columns; nothing, where its line or its column is outside
    of the grid. -/
structure InGrid (call : DrawCall) (d : Ssd1306) : Prop where
  chars : ∀ a, (call.draw d).buf a ≠ d.buf a →
    call.line < lcdCharLines ∧ ∃ c, call.column ≤ c ∧ c < lcdCharPerLine ∧ a = cell call.line c
  masks : ∀ c, (call.draw d).invertMask c ≠ d.invertMask c →
    call.line < lcdCharLines ∧ call.column ≤ c ∧ c < lcdCharPerLine
  bits : ∀ l < lcdCharLines, l ≠ call.line → ∀ c, invBit (call.draw d) l c = invBit d l c
  outside : lcdCharLines ≤ call.line ∨ lcdCharPerLine ≤ call.column → call.draw d = d

/-- The call has something to write, and the tests on the column, the icon and the width do not
    return. -/
def Writes : DrawCall → Prop
  | .drawstring _ x c _ => x.toNat < lcdCharPerLine ∧ c.bytes ≠ []
  | .drawicon idx _ x width => idx.toNat < lcdMaxIcon ∧ 0 < width.toNat ∧ width.toNat ≤ 8 ∧
      x.toNat + width.toNat ≤ lcdCharPerLine
  | .clearline _ => True

/-- A call that writes nothing. -/
theorem draw_of_not_writes {call : DrawCall} (h : ¬ call.Writes) (d : Ssd1306) :
    call.draw d = d := by
  cases call with
  | drawstring line x c invert =>
      simp only [draw, RfPirate.drawstring]
      split
      · rfl
      · rename_i hx
        have hnil : c.bytes = [] := by
          by_contra hne
          exact h ⟨Nat.lt_of_not_le hx, hne⟩
        rw [hnil, drawLoop]
  | drawicon idx line x width =>
      simp only [draw, RfPirate.drawicon]
      split
      · rfl
      split
      · rfl
      split
      · rfl
      · rename_i hx hidx hwidth
        have hzero : width.toNat = 0 := by
          by_contra hne
          exact h ⟨by omega, by omega, by omega, by omega⟩
        rw [hzero, drawiconLoop]
  | clearline line => exact absurd trivial h

theorem line_eq_of_covers {line x n a : Nat} (h : Covers line x n (a / lcdCharPerLine)
    (a % lcdCharPerLine)) :
    ∃ c, x ≤ c ∧ c < lcdCharPerLine ∧ a = cell line c := by
  refine ⟨a % lcdCharPerLine, h.2.1, mod_lt_charPerLine a, ?_⟩
  rw [← h.1]
  exact (cell_div_mod a).symm

/-- Where the drawing functions write, on a line of the grid. -/
theorem chars_of_line {call : DrawCall} (hline : call.line < lcdCharLines) (d : Ssd1306) (a : Nat)
    (ha : (call.draw d).buf a ≠ d.buf a) :
    ∃ c, call.column ≤ c ∧ c < lcdCharPerLine ∧ a = cell call.line c := by
  have hmod := mod_lt_charPerLine a
  rw [← cell_div_mod a] at ha
  cases call with
  | drawstring line x c invert =>
      have hbuf := drawstring_cell d (l := a / lcdCharPerLine) (x := x.toNat) c.bytes invert hline
        hmod
      by_cases hcov : Covers line.toNat x.toNat c.bytes.length (a / lcdCharPerLine)
          (a % lcdCharPerLine)
      · exact line_eq_of_covers hcov
      · exact absurd (hbuf.trans (if_neg hcov)) ha
  | drawicon idx line x width =>
      have hbuf := drawicon_cell d (l := a / lcdCharPerLine) (x := x.toNat) idx.toNat line.toNat
        width.toNat hmod
      by_cases hcov : Covers line.toNat x.toNat width.toNat (a / lcdCharPerLine)
          (a % lcdCharPerLine)
      · exact line_eq_of_covers hcov
      · exact absurd (hbuf.trans (if_neg fun h => hcov h.2.2.2)) ha
  | clearline line =>
      have hbuf := clearline_cell d (l := a / lcdCharPerLine) line.toNat hmod
      by_cases hat : a / lcdCharPerLine = line.toNat
      · refine ⟨a % lcdCharPerLine, Nat.zero_le _, hmod, ?_⟩
        rw [show (DrawCall.clearline line).line = a / lcdCharPerLine from hat.symm]
        exact (cell_div_mod a).symm
      · exact absurd (hbuf.trans (if_neg hat)) ha

/-- A mask after a call is the one before, or it has the bit of the line set or cleared. -/
theorem mask_cases (call : DrawCall) (hline : call.line < lcdCharLines) (d : Ssd1306) (c : Nat) :
    (call.draw d).invertMask c = d.invertMask c ∨
      (call.column ≤ c ∧ c < lcdCharPerLine ∧
        ((call.draw d).invertMask c = d.invertMask c ||| lineBit call.line ∨
          (call.draw d).invertMask c = d.invertMask c &&& ~~~lineBit call.line)) := by
  cases call with
  | drawstring line x cs invert =>
      have hmask := drawstring_mask d (x := x.toNat) cs.bytes invert hline c
      by_cases hon : invert = true ∧ OnColumn x.toNat cs.bytes.length c
      · exact .inr ⟨hon.2.1, hon.2.2.1, .inl (hmask.trans (if_pos hon))⟩
      · exact .inl (hmask.trans (if_neg hon))
  | drawicon idx line x width =>
      by_cases hw : (DrawCall.drawicon idx line x width).Writes
      · obtain ⟨hidx, hpos, hwidth, hroom⟩ := hw
        have hdraw : (DrawCall.drawicon idx line x width).draw d =
            drawiconLoop idx.toNat line.toNat x.toNat width.toNat d := by
          rw [draw, RfPirate.drawicon, if_neg (by omega), if_neg (by omega), if_neg (by omega)]
        have hmask := drawicon_mask d (x := x.toNat) idx.toNat line.toNat width.toNat c
        rw [hdraw]
        by_cases hon : x.toNat ≤ c ∧ c < x.toNat + width.toNat
        · exact .inr ⟨hon.1, Nat.lt_of_lt_of_le hon.2 hroom, .inr (hmask.trans (if_pos hon))⟩
        · exact .inl (hmask.trans (if_neg hon))
      · rw [draw_of_not_writes hw]
        exact .inl rfl
  | clearline line =>
      by_cases hc : c < lcdCharPerLine
      · exact .inr ⟨Nat.zero_le c, hc, .inr (if_pos hc)⟩
      · exact .inl (if_neg hc)

/-- A call on a line of the grid stays inside the grid. -/
theorem inGrid_of_line {call : DrawCall} (hline : call.line < lcdCharLines) (d : Ssd1306) :
    call.InGrid d where
  chars a ha := ⟨hline, chars_of_line hline d a ha⟩
  masks c hc := by
    obtain hsame | ⟨hcol, hgrid, -⟩ := call.mask_cases hline d c
    · exact absurd hsame hc
    · exact ⟨hline, hcol, hgrid⟩
  bits l hl hne c := by
    obtain hsame | ⟨-, -, hset | hclear⟩ := call.mask_cases hline d c
    · rw [invBit, hsame, invBit]
    · rw [invBit, hset, invBit]
      simp only [ne_eq, decide_eq_decide]
      have hset := set_lineBit hline hl (d.invertMask c)
      simpa [hne] using hset
    · rw [invBit, hclear, invBit, clear_lineBit hline hl, if_neg hne]
  outside hout := by
    refine draw_of_not_writes (fun hw => ?_) d
    have hcol : lcdCharPerLine ≤ call.column := hout.resolve_left (Nat.not_le_of_lt hline)
    cases call with
    | drawstring line x c invert => exact absurd hw.1 (Nat.not_lt_of_le hcol)
    | drawicon idx line x width =>
        have hcol' : lcdCharPerLine ≤ x.toNat := hcol
        have hpos := hw.2.1
        have hroom := hw.2.2.2
        omega
    | clearline line => exact absurd (show lcdCharPerLine ≤ 0 from hcol) (by decide)

theorem iconCell_ne_zero (idx i : Nat) : iconCell idx i ≠ 0 := by
  intro hzero
  have hflag : iconCell idx i &&& lcdIconFlag = lcdIconFlag := by
    rw [iconCell, UInt8.or_comm]
    exact uint8_or_and_self _ _
  rw [hzero, UInt8.zero_and] at hflag
  exact absurd hflag (by decide)

/-- A call with something to write writes it on a line behind the grid too. -/
theorem exists_draw_ne {call : DrawCall} (hw : call.Writes) (hline : lcdCharLines ≤ call.line) :
    ∃ d, call.draw d ≠ d := by
  cases call with
  | drawstring line x c invert =>
      obtain ⟨hx, hne⟩ := hw
      refine ⟨Ssd1306.zero, fun hsame => ?_⟩
      cases hc : c.bytes with
      | nil => exact hne hc
      | cons ch cs =>
          have hch : ch ≠ 0 := by
            rintro rfl
            exact c.noNul (by simp [hc])
          -- the line is tested behind the first character
          have hdraw : (DrawCall.drawstring line x c invert).draw Ssd1306.zero =
              drawChar Ssd1306.zero line.toNat x.toNat ch invert := by
            rw [draw, RfPirate.drawstring, if_neg (Nat.not_le_of_lt hx), hc, drawLoop]
            have hbehind : line.toNat ≥ lcdCharLines := hline
            simp only [hbehind, if_true, ite_self]
          have hbuf := congrArg (fun d => d.buf (cell line.toNat x.toNat)) (hdraw.symm.trans hsame)
          simp only [drawChar, Function.update_self, Ssd1306.zero] at hbuf
          exact hch hbuf
  | drawicon idx line x width =>
      obtain ⟨hidx, hpos, hwidth, hroom⟩ := hw
      refine ⟨Ssd1306.zero, fun hsame => ?_⟩
      have hbuf := drawicon_cell Ssd1306.zero (l := line.toNat) (x := x.toNat)
        (y := x.toNat) idx.toNat line.toNat width.toNat (by omega)
      rw [if_pos ⟨hidx, hwidth, hroom, rfl, Nat.le_refl _, by omega⟩] at hbuf
      have hzero : ((DrawCall.drawicon idx line x width).draw Ssd1306.zero).buf
          (cell line.toNat x.toNat) = 0 := by
        rw [hsame]
        rfl
      exact iconCell_ne_zero _ _ (hbuf.symm.trans hzero)
  | clearline line =>
      refine ⟨{ Ssd1306.zero with buf := fun _ => 1 }, fun hsame => ?_⟩
      have hbuf := clearline_cell { Ssd1306.zero with buf := fun _ => 1 } (l := line.toNat)
        (y := 0) line.toNat (by decide)
      rw [if_pos rfl] at hbuf
      have hone : ((DrawCall.clearline line).draw { Ssd1306.zero with buf := fun _ => 1 }).buf
          (cell line.toNat 0) = 1 := by
        rw [hsame]
      rw [draw, hbuf] at hone
      exact absurd hone (by decide)

/-- A call stays inside of the grid whatever the display holds if and only if its line is in the
    grid or it has nothing to write: `drawstring` tests the line behind its first character,
    `drawicon` and `clearline` do not test it. -/
theorem inGrid_iff (call : DrawCall) :
    (∀ d, call.InGrid d) ↔ (call.Writes → call.line < lcdCharLines) := by
  constructor
  · intro hgrid hw
    by_contra hline
    obtain ⟨d, hne⟩ := exists_draw_ne hw (Nat.le_of_not_lt hline)
    exact hne ((hgrid d).outside (.inl (Nat.le_of_not_lt hline)))
  · intro hok d
    by_cases hline : call.line < lcdCharLines
    · exact inGrid_of_line hline d
    · have hdraw : call.draw d = d := draw_of_not_writes (fun hw => hline (hok hw)) d
      refine ⟨fun a ha => ?_, fun c hc => ?_, fun l _ _ c => ?_, fun _ => hdraw⟩
      · exact absurd (by rw [hdraw]) ha
      · exact absurd (by rw [hdraw]) hc
      · rw [hdraw]

end DrawCall

/-- The text of a status line. -/
def letterB : CStr := ⟨[66], by decide⟩

/-- A letter on the line behind the last: it is written, and behind the buffer. -/
theorem letterB_outside_grid : ¬ (DrawCall.drawstring 8 0 letterB false).InGrid Ssd1306.zero := by
  intro hgrid
  have hbuf := congrArg (fun d => d.buf 168) (hgrid.outside (.inl (by decide)))
  exact absurd hbuf (by decide)

/-! ### The look of a string -/

/-- The displays are the same but for the cells that `n` characters at `x` on line `line` cover. -/
def SameOutside (line x n : Nat) (d d' : Ssd1306) : Prop :=
  ∀ l, ∀ y < lcdCharPerLine, ¬ Covers line x n l y →
    d'.buf (cell l y) = d.buf (cell l y) ∧ (l < lcdCharLines → invBit d' l y = invBit d l y)

/-- What `drawstring` should do to `d`: the characters that fit stand there, inverted if and only if
    `invert` is set, and nothing else has changed. -/
structure Looks (d : Ssd1306) (line x : Nat) (c : CStr) (invert : Bool) : Prop where
  chars : ∀ j (hj : j < c.bytes.length), x + j < lcdCharPerLine →
    (drawstring d line x c.bytes invert).buf (cell line (x + j)) = c.bytes[j]
  inverted : ∀ j < c.bytes.length, x + j < lcdCharPerLine →
    invBit (drawstring d line x c.bytes invert) line (x + j) = invert
  rest : SameOutside line x c.bytes.length d (drawstring d line x c.bytes invert)

section Look

variable {line x : Nat} {c : CStr} {invert : Bool} (d d' : Ssd1306)

theorem covers_add {n j : Nat} (hj : j < n) : Covers line x n line (x + j) := by
  refine ⟨rfl, Nat.le_add_right x j, ?_⟩
  rwa [Nat.add_sub_cancel_left]

/-- The invert bit of a drawn cell is set by `invert`, and it is not cleared. -/
theorem drawstring_invBit_add (hline : line < lcdCharLines) {j : Nat} (hj : j < c.bytes.length)
    (hgrid : x + j < lcdCharPerLine) :
    invBit (drawstring d line x c.bytes invert) line (x + j) =
      (invBit d line (x + j) || invert) := by
  have hbit := drawstring_invBit d (x := x) c.bytes invert hline hline hgrid
  rw [Bool.eq_iff_iff, hbit, Bool.or_eq_true]
  simp only [covers_add hj, and_true]

theorem drawstring_rest (hline : line < lcdCharLines) :
    SameOutside line x c.bytes.length d (drawstring d line x c.bytes invert) := by
  intro l y hy hnot
  refine ⟨?_, fun hl => ?_⟩
  · rw [drawstring_cell d c.bytes invert hline hy, if_neg hnot]
  · rw [Bool.eq_iff_iff, drawstring_invBit d c.bytes invert hline hl hy]
    simp only [hnot, and_false, or_false]

theorem looks_iff (hline : line < lcdCharLines) :
    Looks d line x c invert ↔ invert = true ∨
      ∀ j < c.bytes.length, x + j < lcdCharPerLine → invBit d line (x + j) = false := by
  constructor
  · intro hlook
    cases invert with
    | true => exact .inl rfl
    | false =>
        refine .inr fun j hj hgrid => ?_
        have hbit : invBit (drawstring d line x c.bytes false) line (x + j) =
            (invBit d line (x + j) || false) := drawstring_invBit_add d hline hj hgrid
        rw [hlook.inverted j hj hgrid, Bool.or_false] at hbit
        exact hbit.symm
  · intro hclear
    refine ⟨fun j hj hgrid => ?_, fun j hj hgrid => ?_, drawstring_rest d hline⟩
    · rw [drawstring_cell d c.bytes invert hline hgrid, if_pos (covers_add hj),
        Nat.add_sub_cancel_left, List.getD_eq_getElem _ _ hj]
    · rw [drawstring_invBit_add d hline hj hgrid]
      obtain rfl | hclear := hclear
      · exact Bool.or_true _
      · rw [hclear j hj hgrid, Bool.false_or]

/-- Two histories that differ only in the covered cells. -/
theorem sameLine_drawstring_iff (hline : line < lcdCharLines)
    (hsame : SameOutside line x c.bytes.length d d') :
    (∀ l < lcdCharLines, SameLine (drawstring d line x c.bytes invert)
        (drawstring d' line x c.bytes invert) l) ↔ invert = true ∨
      ∀ j < c.bytes.length, x + j < lcdCharPerLine →
        invBit d' line (x + j) = invBit d line (x + j) := by
  constructor
  · intro hlines
    cases invert with
    | true => exact .inl rfl
    | false =>
        refine .inr fun j hj hgrid => ?_
        have hbit := (hlines line hline).mask (x + j) hgrid
        rw [drawstring_invBit_add d hline hj hgrid, drawstring_invBit_add d' hline hj hgrid,
          Bool.or_false, Bool.or_false] at hbit
        exact hbit
  · intro hbits l hl
    refine ⟨fun y hy => ?_, fun y hy => ?_⟩
    · rw [drawstring_cell d' c.bytes invert hline hy, drawstring_cell d c.bytes invert hline hy]
      split
      · rfl
      · rename_i hnot
        exact (hsame l y hy hnot).1
    · by_cases hcov : Covers line x c.bytes.length l y
      · obtain ⟨rfl, hle, hlt⟩ := hcov
        obtain ⟨j, rfl⟩ := Nat.exists_eq_add_of_le hle
        rw [Nat.add_sub_cancel_left] at hlt
        rw [drawstring_invBit_add d' hline hlt hy, drawstring_invBit_add d hline hlt hy]
        obtain rfl | hbits := hbits
        · rw [Bool.or_true, Bool.or_true]
        · rw [hbits j hlt hy]
      · rw [(drawstring_rest d' hline l y hy hcov).2 hl, (drawstring_rest d hline l y hy hcov).2 hl]
        exact (hsame l y hy hcov).2 hl

end Look

/-- `drawstring` gives the characters and invert bits that it should if and only if `invert` is set
    or no cell it draws was inverted; and what was there before makes no difference if and only if
    `invert` is set or the same of these cells were inverted. -/
theorem drawstring_looks_iff {line : Nat} (hline : line < lcdCharLines) (x : Nat) (c : CStr)
    (invert : Bool) :
    (∀ d, Looks d line x c invert ↔ invert = true ∨
      ∀ j < c.bytes.length, x + j < lcdCharPerLine → invBit d line (x + j) = false) ∧
    (∀ d d', SameOutside line x c.bytes.length d d' →
      ((∀ l < lcdCharLines, SameLine (drawstring d line x c.bytes invert)
          (drawstring d' line x c.bytes invert) l) ↔ invert = true ∨
        ∀ j < c.bytes.length, x + j < lcdCharPerLine →
          invBit d' line (x + j) = invBit d line (x + j))) :=
  ⟨fun d => looks_iff d hline, fun d d' => sameLine_drawstring_iff d d' hline⟩

/-- One letter in the first cell of a display that shows nothing. -/
theorem letterB_looks_iff :
    Looks Ssd1306.zero 0 0 letterB false ↔ false = true ∨
      ∀ j < letterB.bytes.length, 0 + j < lcdCharPerLine →
        invBit Ssd1306.zero 0 (0 + j) = false :=
  (drawstring_looks_iff (by decide) 0 letterB false).1 Ssd1306.zero

/-- A letter over an inverted one stays inverted. -/
theorem letterB_over_inverted :
    ¬ Looks (drawstring Ssd1306.zero 0 0 letterB.bytes true) 0 0 letterB false := by
  intro hlook
  exact absurd (hlook.inverted 0 (by decide) (by decide)) (by decide)

end RfPirate
