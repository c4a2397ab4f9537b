/-
Module: RfPirate.Proofs.Ssd1306
Layer: Proofs
Purpose: What each drawing function does to the cells of the character buffer and to their invert
  bits, stated cell by cell.
Main exports: invBit, clear_cell, clearline_cell, clearline_invBit, drawstring_cell,
  drawstring_invBit, drawicon_cell, ShowsLine, SameLine, ShowsLine.append
-/
import RfPirate.Core.Ssd1306
import RfPirate.Lib.Bytes
import Mathlib.Data.List.GetD

namespace RfPirate

open Lib Lib.Bytes

/-! ### Addresses and bits -/

/-- Cells of the grid are different bytes. -/
theorem cell_inj {l l' c c' : Nat} (hc : c < lcdCharPerLine) (hc' : c' < lcdCharPerLine) :
    cell l c = cell l' c' ↔ l = l' ∧ c = c' := by
  simp only [cell, lcdCharPerLine] at *
  constructor
  · intro h
    omega
  · rintro ⟨rfl, rfl⟩
    rfl

/-- The invert bit of a cell. -/
def invBit (d : Ssd1306) (line x : Nat) : Bool := d.invertMask x &&& lineBit line ≠ 0

theorem lineBit_and_ne_zero : ∀ line < lcdCharLines, lineBit line ≠ 0 := by decide

theorem not_lineBit_and : ∀ line < lcdCharLines, ∀ l < lcdCharLines,
    ~~~lineBit line &&& lineBit l = if l = line then 0 else lineBit l := by decide

theorem lineBit_and : ∀ line < lcdCharLines, ∀ l < lcdCharLines,
    lineBit line &&& lineBit l = if l = line then lineBit l else 0 := by decide

/-- Clearing the bit of a line. -/
theorem clear_lineBit {line l : Nat} (hline : line < lcdCharLines) (hl : l < lcdCharLines)
    (mask : UInt8) :
    (mask &&& ~~~lineBit line) &&& lineBit l = if l = line then 0 else mask &&& lineBit l := by
  rw [UInt8.and_assoc, not_lineBit_and line hline l hl]
  split
  · exact UInt8.and_zero
  · rfl

/-- Setting the bit of a line. -/
theorem set_lineBit {line l : Nat} (hline : line < lcdCharLines) (hl : l < lcdCharLines)
    (mask : UInt8) :
    (mask ||| lineBit line) &&& lineBit l ≠ 0 ↔ mask &&& lineBit l ≠ 0 ∨ l = line := by
  by_cases heq : l = line
  · subst heq
    simp [uint8_or_and_self, lineBit_and_ne_zero l hl]
  · rw [uint8_or_and_right, lineBit_and line hline l hl, if_neg heq, UInt8.or_zero]
    simp [heq]

/-! ### Clearing -/

section Effects

variable (d : Ssd1306) {line l x y : Nat}

theorem clear_cell (hl : l < lcdCharLines) (hy : y < lcdCharPerLine) :
    (clear d).buf (cell l y) = 0 := by
  have hlt : cell l y < cell lcdCharLines 0 := by
    simp only [cell, lcdCharPerLine, lcdCharLines] at *
    omega
  simp [clear, hlt]

theorem clearline_cell (line : Nat) (hy : y < lcdCharPerLine) :
    (clearline d line).buf (cell l y) = if l = line then 0 else d.buf (cell l y) := by
  have hiff : (cell line 0 ≤ cell l y ∧ cell l y < cell line lcdCharPerLine) ↔ l = line := by
    simp only [cell, lcdCharPerLine] at *
    omega
  simp only [clearline, hiff]

theorem clearline_invBit (hline : line < lcdCharLines) (hl : l < lcdCharLines)
    (hy : y < lcdCharPerLine) :
    invBit (clearline d line) l y = if l = line then false else invBit d l y := by
  have hmask : (clearline d line).invertMask y = d.invertMask y &&& ~~~lineBit line := if_pos hy
  rw [invBit, hmask, clear_lineBit hline hl]
  split
  · rfl
  · rfl

/-! ### Strings -/

/-- The cells of line `line` that a string of `n` characters at `x` covers. -/
def Covers (line x n l y : Nat) : Prop := l = line ∧ x ≤ y ∧ y - x < n
deriving Decidable

theorem covers_cons {n : Nat} :
    Covers line x (n + 1) l y ↔ (l = line ∧ y = x) ∨ Covers line (x + 1) n l y := by
  simp only [Covers]
  omega

theorem not_covers_of_ge {n : Nat} (hx : lcdCharPerLine ≤ x) (hy : y < lcdCharPerLine) :
    ¬ Covers line x n l y := by
  simp only [Covers]
  omega

theorem drawChar_cell (c : UInt8) (invert : Bool) (hx : x < lcdCharPerLine)
    (hy : y < lcdCharPerLine) :
    (drawChar d line x c invert).buf (cell l y) =
      if l = line ∧ y = x then c else d.buf (cell l y) := by
  simp only [drawChar, Function.update_apply, cell_inj hy hx]

theorem drawChar_invBit (c : UInt8) (invert : Bool) (hline : line < lcdCharLines)
    (hl : l < lcdCharLines) :
    invBit (drawChar d line x c invert) l y = true ↔
      invBit d l y = true ∨ (invert = true ∧ l = line ∧ y = x) := by
  cases invert with
  | false => simp [drawChar, invBit]
  | true =>
      by_cases hyx : y = x
      · subst hyx
        simpa [drawChar, invBit] using set_lineBit hline hl (d.invertMask y)
      · simp [drawChar, invBit, hyx]

/-- A string on a line of the grid, up to the end of the line. -/
theorem drawstring_cell (cs : List UInt8) (invert : Bool) (hline : line < lcdCharLines)
    (hy : y < lcdCharPerLine) :
    (drawstring d line x cs invert).buf (cell l y) =
      if Covers line x cs.length l y then cs.getD (y - x) 0 else d.buf (cell l y) := by
  rw [drawstring]
  split
  · rename_i hx
    rw [if_neg (not_covers_of_ge hx hy)]
  · rename_i hx
    induction cs generalizing x d with
    | nil => simp [drawLoop, Covers]
    | cons c cs ih =>
        have hx' : x < lcdCharPerLine := by omega
        have hfirst : (drawChar d line x c invert).buf (cell l y) = _ :=
          drawChar_cell d c invert hx' hy
        -- what the rest of the string draws
        have hrest : (drawLoop line invert x (c :: cs) d).buf (cell l y) =
            if Covers line (x + 1) cs.length l y then cs.getD (y - (x + 1)) 0
            else (drawChar d line x c invert).buf (cell l y) := by
          rw [drawLoop]
          by_cases hend : x + 1 ≥ lcdCharPerLine
          · rw [if_neg (not_covers_of_ge hend hy)]
            simp only [hend, if_true]
          · simp only [hend, if_false, if_neg (show ¬ line ≥ lcdCharLines by omega)]
            exact ih _ hend
        rw [hrest, hfirst, List.length_cons]
        by_cases hcov : Covers line (x + 1) cs.length l y
        · obtain ⟨k, hk⟩ : ∃ k, y - x = k + 1 := ⟨y - x - 1, by simp only [Covers] at hcov; omega⟩
          have hk' : y - (x + 1) = k := by omega
          rw [if_pos hcov, if_pos (covers_cons.mpr (.inr hcov)), hk, hk', List.getD_cons_succ]
        · rw [if_neg hcov]
          by_cases hat : l = line ∧ y = x
          · rw [if_pos hat, if_pos (covers_cons.mpr (.inl hat)), hat.2, Nat.sub_self,
              List.getD_cons_zero]
          · rw [if_neg hat, if_neg fun h => (covers_cons.mp h).elim hat hcov]

theorem drawstring_invBit (cs : List UInt8) (invert : Bool) (hline : line < lcdCharLines)
    (hl : l < lcdCharLines) (hy : y < lcdCharPerLine) :
    invBit (drawstring d line x cs invert) l y = true ↔
      invBit d l y = true ∨ (invert = true ∧ Covers line x cs.length l y) := by
  rw [drawstring]
  split
  · rename_i hx
    simp [not_covers_of_ge hx hy]
  · rename_i hx
    induction cs generalizing x d with
    | nil => simp [drawLoop, Covers]
    | cons c cs ih =>
        have hfirst := drawChar_invBit d (x := x) (y := y) c invert hline hl
        have hrest : invBit (drawLoop line invert x (c :: cs) d) l y = true ↔
            invBit (drawChar d line x c invert) l y = true ∨
              (invert = true ∧ Covers line (x + 1) cs.length l y) := by
          rw [drawLoop]
          by_cases hend : x + 1 ≥ lcdCharPerLine
          · simp only [hend, if_true, not_covers_of_ge hend hy, and_false, or_false]
          · simp only [hend, if_false, if_neg (show ¬ line ≥ lcdCharLines by omega)]
            exact ih _ hend
        rw [hrest, hfirst, List.length_cons, covers_cons, or_assoc, and_or_left]

/-! ### Icons -/

theorem drawiconLoop_cell (idx line : Nat) (n : Nat) (hn : x + n ≤ lcdCharPerLine)
    (hy : y < lcdCharPerLine) :
    (drawiconLoop idx line x n d).buf (cell l y) =
      if Covers line x n l y then iconCell idx (y - x) else d.buf (cell l y) := by
  induction n with
  | zero => simp [drawiconLoop, Covers]
  | succ n ih =>
      have hx : x + n < lcdCharPerLine := by omega
      simp only [drawiconLoop, Function.update_apply, cell_inj hy hx]
      by_cases hat : l = line ∧ y = x + n
      · have hcov : Covers line x (n + 1) l y := by
          simp only [Covers]
          omega
        have hpart : y - x = n := by omega
        rw [if_pos hat, if_pos hcov, hpart]
      · have hcov : Covers line x (n + 1) l y ↔ Covers line x n l y := by
          simp only [Covers]
          omega
        simp only [if_neg hat, hcov, ih (by omega)]

/-- An icon that exists and fits, and nothing otherwise. -/
theorem drawicon_cell (idx line width : Nat) (hy : y < lcdCharPerLine) :
    (drawicon d idx line x width).buf (cell l y) =
      if idx < lcdMaxIcon ∧ width ≤ 8 ∧ x + width ≤ lcdCharPerLine ∧ Covers line x width l y then
        iconCell idx (y - x)
      else d.buf (cell l y) := by
  by_cases hfit : x < lcdCharPerLine ∧ idx < lcdMaxIcon ∧ width ≤ 8 ∧ x + width ≤ lcdCharPerLine
  · obtain ⟨hx, hidx, hwidth, hroom⟩ := hfit
    have hdraw : drawicon d idx line x width = drawiconLoop idx line x width d := by
      rw [drawicon, if_neg (by omega), if_neg (by omega), if_neg (by omega)]
    rw [hdraw, drawiconLoop_cell d idx line width hroom hy]
    simp only [hidx, hwidth, hroom, true_and]
  · have hdraw : drawicon d idx line x width = d := by
      simp only [drawicon]
      split
      · rfl
      split
      · rfl
      split
      · rfl
      · omega
    have hnot : ¬ (idx < lcdMaxIcon ∧ width ≤ 8 ∧ x + width ≤ lcdCharPerLine ∧
        Covers line x width l y) := by
      simp only [Covers]
      omega
    rw [hdraw, if_neg hnot]

end Effects

/-! ### Whole lines -/

/-- The line shows the characters `cs`, cut to the grid and padded with zeros, and of its cells the
    first `k` are inverted. -/
structure ShowsLine (d : Ssd1306) (line : Nat) (cs : List UInt8) (k : Nat) : Prop where
  chars : ∀ y < lcdCharPerLine, d.buf (cell line y) = cs.getD y 0
  mask : ∀ y < lcdCharPerLine, (invBit d line y = true ↔ y < k)

/-- A line is the same on both displays. -/
structure SameLine (d d' : Ssd1306) (l : Nat) : Prop where
  chars : ∀ y < lcdCharPerLine, d'.buf (cell l y) = d.buf (cell l y)
  mask : ∀ y < lcdCharPerLine, invBit d' l y = invBit d l y

section Lines

variable {d d' d'' : Ssd1306} {line l x k : Nat} {cs text : List UInt8} {invert : Bool}

theorem SameLine.refl (d : Ssd1306) (l : Nat) : SameLine d d l := ⟨fun _ _ => rfl, fun _ _ => rfl⟩

theorem SameLine.trans (h : SameLine d d' l) (h' : SameLine d' d'' l) : SameLine d d'' l :=
  ⟨fun y hy => (h'.chars y hy).trans (h.chars y hy),
    fun y hy => (h'.mask y hy).trans (h.mask y hy)⟩

theorem ShowsLine.congr (h : ShowsLine d l cs k) (hsame : SameLine d d' l) :
    ShowsLine d' l cs k := by
  refine ⟨fun y hy => (hsame.chars y hy).trans (h.chars y hy), fun y hy => ?_⟩
  rw [hsame.mask y hy]
  exact h.mask y hy

theorem clearline_same (hline : line < lcdCharLines) (hl : l < lcdCharLines) (hne : l ≠ line) :
    SameLine d (clearline d line) l := by
  refine ⟨fun y hy => ?_, fun y hy => ?_⟩
  · rw [clearline_cell d line hy, if_neg hne]
  · rw [clearline_invBit d hline hl hy, if_neg hne]

theorem drawstring_same (hline : line < lcdCharLines) (hl : l < lcdCharLines) (hne : l ≠ line) :
    SameLine d (drawstring d line x text invert) l := by
  have hnot : ∀ y, ¬ Covers line x text.length l y := fun y hcov => hne hcov.1
  refine ⟨fun y hy => ?_, fun y hy => ?_⟩
  · rw [drawstring_cell d text invert hline hy, if_neg (hnot y)]
  · rw [Bool.eq_iff_iff, drawstring_invBit d text invert hline hl hy]
    simp [hnot y]

theorem clearline_shows (d : Ssd1306) (hline : line < lcdCharLines) :
    ShowsLine (clearline d line) line [] 0 := by
  refine ⟨fun y hy => ?_, fun y hy => ?_⟩
  · rw [clearline_cell d line hy, if_pos rfl, List.getD_nil]
  · rw [clearline_invBit d hline hline hy, if_pos rfl]
    simp

/-- Where a string is drawn behind what the line shows, the line shows both. -/
theorem ShowsLine.append_chars (h : ShowsLine d line cs k) (hline : line < lcdCharLines)
    (text : List UInt8) (invert : Bool) {y : Nat} (hy : y < lcdCharPerLine) :
    (drawstring d line cs.length text invert).buf (cell line y) =
      (cs ++ text).getD y 0 := by
  rw [drawstring_cell d text invert hline hy]
  by_cases hfirst : y < cs.length
  · have hnot : ¬ Covers line cs.length text.length line y := by
      simp only [Covers]
      omega
    rw [if_neg hnot, h.chars y hy, List.getD_append _ _ _ _ hfirst]
  · have hge : cs.length ≤ y := by omega
    rw [List.getD_append_right _ _ _ _ hge]
    by_cases hlast : y - cs.length < text.length
    · rw [if_pos ⟨rfl, hge, hlast⟩]
    · rw [if_neg fun hcov => hlast hcov.2.2, h.chars y hy, List.getD_eq_default _ _ hge,
        List.getD_eq_default _ _ (by omega)]

theorem ShowsLine.append (h : ShowsLine d line cs k) (hline : line < lcdCharLines)
    (text : List UInt8) :
    ShowsLine (drawstring d line cs.length text false) line (cs ++ text) k := by
  refine ⟨fun y hy => h.append_chars hline text false hy, fun y hy => ?_⟩
  rw [drawstring_invBit d text false hline hline hy, h.mask y hy]
  simp

/-- The same for an inverted string, behind cells that are all inverted. -/
theorem ShowsLine.append_invert (h : ShowsLine d line cs cs.length) (hline : line < lcdCharLines)
    (text : List UInt8) :
    ShowsLine (drawstring d line cs.length text true) line (cs ++ text)
      (cs ++ text).length := by
  refine ⟨fun y hy => h.append_chars hline text true hy, fun y hy => ?_⟩
  rw [drawstring_invBit d text true hline hline hy, h.mask y hy, List.length_append]
  simp only [Covers, true_and]
  omega

end Lines

end RfPirate
