/-
Module: RfPirate.Proofs.MenuScreen
Layer: Proofs
Purpose: What `DrawMenu` leaves on the display, against a reference screen: a window of the menu
  around the cursor, one entry a line, with arrows in the last column where the menu goes on.
Main exports: entryText, entryLine, bodyCell, bodyMark, Drawable, drawEntries_shows,
  drawMenu_renders
-/
import RfPirate.Proofs.MenuPath
import RfPirate.Proofs.Ssd1306

namespace RfPirate

open Lib Lib.CString

/-! ### The reference screen -/

section Reference

variable {σ : Type*} (P : Program σ) (n : Nat) (w : World σ) (top : Nat)

/-- Size of the scratch buffer of `get_text`. -/
def scratchSize : Nat := 20

/-- The value of a dropdown as text. The two string types have none of their own: they show what is
    in the scratch buffer. -/
def valueText : MenuEntry → List UInt8
  | .dropdown _ d type =>
      if type = typeDropEnum then
        (P.enumText (w.drops.drops d).data (w.drops.drops d).idx.toNat).bytes
      else if type = typeDropNum then MenuEntry.decimal (w.drops.num d).toNat
      else cstr scratchSize w.buf
  | _ => []

/-- The text of entry `i`; of an open dropdown, its value. -/
def entryText (i : Nat) : List UInt8 :=
  let e := P.menus w.cur.menu i
  if e.isDropdown && w.opened w.cur.menu i then valueText P w e
  else (e.text.map CStr.bytes).getD []

/-- The line of entry `i`. -/
def entryLine (i : Nat) : List UInt8 :=
  (if i = w.cur.selected then [32] else []) ++ entryText P w i ++
    if (P.menus w.cur.menu i).next?.isSome then dirIcon else []

/-- Line `i` of the window from entry `top` on. -/
def bodyLine (i : Nat) : List UInt8 := if top + i < n then entryLine P w (top + i) else []

/-- How many cells of the line are inverted: the leading space and the text of the selected
    entry. -/
def bodyMark (i : Nat) : Nat :=
  if top + i < n ∧ top + i = w.cur.selected then (entryText P w (top + i)).length + 1 else 0

/-- A cell of the window, with the arrows in the last column. -/
def bodyCell (i y : Nat) : UInt8 :=
  if y = 20 ∧ i + 1 = w.menu.visibleLines ∧ top + w.menu.visibleLines < n then 2
  else if y = 20 ∧ i = 0 ∧ 0 < top then 1
  else (bodyLine P n w top i).getD y 0

/-- The menu shown has `n` entries, at most as many as the cursor has values, in an enabled range of
    lines below the header. The texts fit a byte of columns, and only the entry under the cursor may
    be an open dropdown, with a value that fits the scratch buffer. -/
structure Drawable : Prop where
  cur_eq : w.menu.cur = w.menu.stackIdx
  header : (header P w).isSome
  menu : IsMenu P.menus w.cur.menu n
  length : n ≤ 128
  count : w.cur.numEntries = 0 ∨ w.cur.numEntries = n
  cursor : w.cur.selected < max n 1
  first : 1 ≤ w.menu.lineStart
  ordered : w.menu.lineStart ≤ w.menu.lineEnd
  last : w.menu.lineEnd ≤ 7
  enabled : w.menu.visibleLines = w.menu.lineEnd - w.menu.lineStart + 1
  texts : ∀ i < n, ∀ text, (P.menus w.cur.menu i).text = some text → text.bytes.length < 250
  drops : ∀ i < n, (P.menus w.cur.menu i).isDropdown = true → w.opened w.cur.menu i = true →
    i = w.cur.selected ∧ (valueText P w (P.menus w.cur.menu i)).length < scratchSize

end Reference

/-! ### Values of dropdowns -/

section Values

variable {σ : Type*} {P : Program σ} {w : World σ}

theorem zero_notMem_decimal (n : Nat) : 0 ∉ MenuEntry.decimal n := by
  intro hzero
  obtain ⟨c, hc, hval⟩ := List.mem_map.mp hzero
  have hdigit : c.isDigit = true := Nat.isDigit_of_mem_toDigits (by decide) (by decide) hc
  simp only [Char.isDigit, Bool.and_eq_true, decide_eq_true_eq] at hdigit
  have hlow : 48 ≤ c.toNat := hdigit.1
  have hhigh : c.toNat ≤ 57 := hdigit.2
  have hzero' : (UInt8.ofNat c.toNat).toNat = 0 := congrArg UInt8.toNat hval
  rw [UInt8.toNat_ofNat'] at hzero'
  omega

/-- `get_text` puts the value of a dropdown into the scratch buffer. -/
theorem cstr_getText {e : MenuEntry} (he : e.isDropdown = true)
    (hlen : (valueText P w e).length < scratchSize) :
    cstr lcdCharPerLine (e.getText P.enumText w.drops w.buf) = valueText P w e := by
  cases e with
  | dropdown text d type =>
      simp only [valueText, MenuEntry.getText] at hlen ⊢
      split at hlen
      · rename_i henum
        rw [if_pos henum, if_pos henum]
        exact cstr_storeStr_whole _ (CStr.noNul _) (Nat.lt_trans hlen (by decide))
      · rename_i henum
        rw [if_neg henum, if_neg henum]
        split at hlen
        · rename_i hnum
          rw [if_pos hnum, if_pos hnum]
          exact cstr_storeStr_whole _ (zero_notMem_decimal _) (Nat.lt_trans hlen (by decide))
        · rename_i hnum
          rw [if_neg hnum, if_neg hnum]
          exact cstr_succ_of_length_lt hlen
  | dummy _ => simp [MenuEntry.isDropdown] at he
  | branch _ _ => simp [MenuEntry.isDropdown] at he
  | exec _ _ => simp [MenuEntry.isDropdown] at he
  | evtHdl _ _ _ => simp [MenuEntry.isDropdown] at he

end Values

/-! ### One line -/

section Entries

variable {σ : Type*} {P : Program σ} {n : Nat} {w : World σ} {top selected i : Nat} {d : Ssd1306}
  {buf : Nat → UInt8}

/-- The leading space of the selected entry, and the text, which is inverted with it. -/
theorem drawText_shows {line : Nat} (h : ShowsLine d line [] 0) (hline : line < lcdCharLines)
    (i selected : Nat) (text : List UInt8) :
    ShowsLine
      (drawstring (if i = selected then drawstring d line 0 [32] true else d) line
        (if i = selected then 1 else 0) text (selected = i)) line
      ((if i = selected then [32] else []) ++ text)
      (if i = selected then text.length + 1 else 0) := by
  by_cases hsel : i = selected
  · have hlead : ShowsLine (drawstring d line 0 [32] true) line [32] 1 :=
      h.append_invert hline [32]
    have htext := hlead.append_invert hline text
    simpa [hsel, Nat.add_comm] using htext
  · have hsel' : ¬ selected = i := fun heq => hsel heq.symm
    simpa [hsel, hsel'] using h.append hline text

theorem drawText_same {line l : Nat} (hline : line < lcdCharLines) (hl : l < lcdCharLines)
    (hne : l ≠ line) (x : Nat) (text : List UInt8) (invert : Bool) :
    SameLine d (drawstring (if i = selected then drawstring d line 0 [32] true else d) line x text
      invert) l := by
  by_cases hsel : i = selected
  · rw [if_pos hsel]
    exact (drawstring_same hline hl hne).trans (drawstring_same hline hl hne)
  · rw [if_neg hsel]
    exact drawstring_same hline hl hne

/-- A line of the window was drawn on `d`, which gave `d'`: it shows its entry, and the other lines
    are as before. -/
structure DrewLine (P : Program σ) (n : Nat) (w : World σ) (top i : Nat) (d d' : Ssd1306) :
    Prop where
  shows : ShowsLine d' (w.menu.lineStart + i) (bodyLine P n w top i) (bodyMark P n w top i)
  same : ∀ l < lcdCharLines, l ≠ w.menu.lineStart + i → SameLine d d' l

theorem Drawable.line (h : Drawable P n w) (hi : i < w.menu.visibleLines) :
    (i + w.menu.lineStart) % 256 = w.menu.lineStart + i ∧
      w.menu.lineStart + i < lcdCharLines := by
  have hordered := h.ordered
  have hlast := h.last
  have henabled := h.enabled
  simp only [lcdCharLines]
  omega

/-- What a line of an entry shows, by its place in the window. -/
theorem bodyLine_of_lt (hentry : top + i < n) (hselected : top + selected = w.cur.selected) :
    bodyLine P n w top i = (if i = selected then [32] else []) ++ entryText P w (top + i) ++
      if (P.menus w.cur.menu (top + i)).next?.isSome then dirIcon else [] := by
  have hsel : top + i = w.cur.selected ↔ i = selected := by omega
  simp only [bodyLine, entryLine, if_pos hentry, hsel]

theorem bodyMark_of_lt (hentry : top + i < n) (hselected : top + selected = w.cur.selected) :
    bodyMark P n w top i = if i = selected then (entryText P w (top + i)).length + 1 else 0 := by
  have hsel : top + i = w.cur.selected ↔ i = selected := by omega
  simp only [bodyMark, hentry, hsel, true_and]

/-- The directory icon goes behind the text. The column is a byte, which the text fits. -/
theorem drawDir_shows {line : Nat} {text : List UInt8} {k : Nat} (hline : line < lcdCharLines)
    (hlen : text.length < 250)
    (h : ShowsLine d line ((if i = selected then [32] else []) ++ text) k) (b : Bool) :
    ShowsLine
      (if b then drawstring d line (((if i = selected then 1 else 0) + text.length) % 256) dirIcon
        false else d) line
      ((if i = selected then [32] else []) ++ text ++ if b then dirIcon else []) k := by
  have hx : ((if i = selected then 1 else 0) + text.length) % 256 =
      ((if i = selected then [(32 : UInt8)] else []) ++ text).length := by
    by_cases hi : i = selected
    · simp only [hi, if_true, List.length_append, List.length_singleton]
      omega
    · simp only [hi, if_false, List.nil_append]
      omega
  cases b with
  | false => simpa using h
  | true =>
      rw [if_pos rfl, if_pos rfl, hx]
      exact h.append hline dirIcon

theorem drawDir_same {line l : Nat} (hline : line < lcdCharLines) (hl : l < lcdCharLines)
    (hne : l ≠ line) (x : Nat) (b : Bool) :
    SameLine d (if b then drawstring d line x dirIcon false else d) l := by
  cases b with
  | false => exact .refl d l
  | true => exact drawstring_same hline hl hne

theorem Drawable.visibleLines_pos (h : Drawable P n w) : 1 ≤ w.menu.visibleLines := by
  rw [h.enabled]
  exact Nat.le_add_left 1 _

/-- One round of the loop. The scratch buffer is needed on the line of the cursor only. -/
theorem drawEntry_shows (h : Drawable P n w) (hcount : w.cur.numEntries = n)
    (htop : top = 0 ∨ top + w.menu.visibleLines ≤ n) (hselected : top + selected = w.cur.selected)
    (hi : i < w.menu.visibleLines) (d : Ssd1306) (hbuf : i = selected → buf = w.buf) :
    ∃ d' buf', drawEntry P w top selected i d buf = some (d', buf') ∧
      DrewLine P n w top i d d' ∧ (i ≠ selected → buf' = buf) := by
  obtain ⟨hmod, hline⟩ := h.line hi
  have hcleared : ShowsLine (clearline d (w.menu.lineStart + i)) (w.menu.lineStart + i) [] 0 :=
    clearline_shows d hline
  unfold drawEntry
  simp only [hmod, hcount]
  by_cases hend : i ≥ n
  · -- the window starts at entry 0, and the menu ends above this line
    have hgone : ¬ top + i < n := by omega
    refine ⟨_, _, if_pos hend, ⟨?_, fun l hl hne => clearline_same hline hl hne⟩, fun _ => rfl⟩
    simpa [bodyLine, bodyMark, hgone] using hcleared
  · have hentry : top + i < n := by omega
    obtain ⟨text, htext⟩ := Option.ne_none_iff_exists'.mp (h.menu.texts _ hentry)
    rw [if_neg hend]
    by_cases hopen : ((P.menus w.cur.menu (top + i)).isDropdown &&
        w.opened w.cur.menu (top + i)) = true
    · obtain ⟨hdrop, hflag⟩ := Bool.and_eq_true_iff.mp hopen
      obtain ⟨hcursor, hlen⟩ := h.drops _ hentry hdrop hflag
      have hi' : i = selected := by omega
      have hvalue : entryText P w (top + i) = valueText P w (P.menus w.cur.menu (top + i)) :=
        if_pos hopen
      have hshows := drawText_shows hcleared hline i selected (entryText P w (top + i))
      refine ⟨_, _, if_pos hopen, ⟨?_, fun l hl hne => ?_⟩, fun hne => absurd hi' hne⟩
      · rw [bodyLine_of_lt hentry hselected, bodyMark_of_lt hentry hselected,
          next?_of_isDropdown hdrop, hbuf hi', cstr_getText hdrop hlen, ← hvalue]
        simpa [hi'] using hshows
      · exact (clearline_same hline hl hne).trans (drawText_same hline hl hne _ _ _)
    · have htext' : entryText P w (top + i) = text.bytes := by
        rw [entryText]
        simp only [hopen, htext]
        rfl
      have hshows := drawText_shows hcleared hline i selected text.bytes
      rw [if_neg hopen, htext]
      refine ⟨_, _, rfl, ⟨?_, fun l hl hne => ?_⟩, fun _ => rfl⟩
      · rw [bodyLine_of_lt hentry hselected, bodyMark_of_lt hentry hselected, htext']
        exact drawDir_shows hline (h.texts _ hentry text htext) hshows _
      · exact ((clearline_same hline hl hne).trans (drawText_same hline hl hne _ _ _)).trans
          (drawDir_same hline hl hne _ _)

/-- The loop from line `i` on shows the window from there on and leaves the other lines. -/
theorem drawEntries_shows (h : Drawable P n w) (hcount : w.cur.numEntries = n)
    (htop : top = 0 ∨ top + w.menu.visibleLines ≤ n)
    (hselected : top + selected = w.cur.selected) :
    ∀ (m i : Nat) (d : Ssd1306) (buf : Nat → UInt8), i + m = w.menu.visibleLines →
      (i ≤ selected → buf = w.buf) →
      ∃ d' buf', drawEntries P w top selected m i d buf = some (d', buf') ∧
        (∀ j, i ≤ j → j < w.menu.visibleLines →
          ShowsLine d' (w.menu.lineStart + j) (bodyLine P n w top j) (bodyMark P n w top j)) ∧
        ∀ l < w.menu.lineStart + i, SameLine d d' l
  | 0, i, d, buf, hlines, _ =>
      ⟨d, buf, rfl, fun j hj hlt => absurd hlt (by omega), fun l _ => .refl d l⟩
  | m + 1, i, d, buf, hlines, hbuf => by
      have hi : i < w.menu.visibleLines := by omega
      have hline := (h.line hi).2
      obtain ⟨d₁, buf₁, hentry, ⟨hshows, hsame⟩, hkept⟩ :=
        drawEntry_shows h hcount htop hselected hi d fun heq => hbuf (Nat.le_of_eq heq)
      have hbuf₁ : i + 1 ≤ selected → buf₁ = w.buf := fun hle =>
        (hkept (by omega)).trans (hbuf (by omega))
      obtain ⟨d', buf', hrest, hshows', hsame'⟩ :=
        drawEntries_shows h hcount htop hselected m (i + 1) d₁ buf₁ (by omega) hbuf₁
      refine ⟨d', buf', ?_, fun j hj hlt => ?_, fun l hl => ?_⟩
      · rw [drawEntries, hentry]
        exact hrest
      · rcases Nat.eq_or_lt_of_le hj with heq | hgt
        · -- later lines do not touch this one
          rw [← heq]
          exact hshows.congr (hsame' _ (by omega))
        · exact hshows' j hgt hlt
      · exact (hsame l (by omega) (by omega)).trans (hsame' l (by omega))

/-! ### The whole screen -/

theorem drawHeader_same (d : Ssd1306) (text : List UInt8) {l : Nat} (hl : l < lcdCharLines)
    (hne : l ≠ 0) : SameLine d (drawHeader d text) l := by
  have hstring : ∀ d x text, SameLine d (drawstring d 0 x text false) l :=
    fun d x text => drawstring_same (by decide) hl hne
  have hcleared : SameLine d (clearline d 0) l := clearline_same (by decide) hl hne
  exact ((hcleared.trans (hstring _ 0 _)).trans (hstring _ 1 _)).trans (hstring _ _ _)

/-- An arrow in the last column, of any line. -/
theorem drawArrow_cell {line l y : Nat} (d : Ssd1306) (hy : y < lcdCharPerLine) (b : Bool)
    (c : UInt8) :
    (if b then drawstring d line 20 [c] false else d).buf (cell l y) =
      if y = 20 ∧ l = line ∧ b = true then c else d.buf (cell l y) := by
  cases b with
  | false => simp
  | true =>
      have hchar : drawstring d line 20 [c] false = drawChar d line 20 c false := rfl
      rw [if_pos rfl, hchar, drawChar_cell d c false (by decide) hy]
      exact if_congr ⟨fun ⟨hl, hy⟩ => ⟨hy, hl, rfl⟩, fun ⟨hy, hl, _⟩ => ⟨hl, hy⟩⟩ rfl rfl

theorem drawArrow_invBit {line : Nat} (d : Ssd1306) (b : Bool) (c : UInt8) (l y : Nat) :
    invBit (if b then drawstring d line 20 [c] false else d) l y = invBit d l y := by
  cases b <;> rfl

theorem drawArrows_shows (h : Drawable P n w)
    (hshows : ∀ j < w.menu.visibleLines,
      ShowsLine d (w.menu.lineStart + j) (bodyLine P n w top j) (bodyMark P n w top j))
    {y : Nat} (hi : i < w.menu.visibleLines) (hy : y < lcdCharPerLine) :
    let oled := drawArrows w (top > 0) (top + w.menu.visibleLines < n) d
    oled.buf (cell (w.menu.lineStart + i) y) = bodyCell P n w top i y ∧
      (invBit oled (w.menu.lineStart + i) y = true ↔ y < bodyMark P n w top i) := by
  have hfirst : w.menu.lineStart + i = w.menu.lineStart ↔ i = 0 := by omega
  have hlast : w.menu.lineStart + i = w.menu.lineEnd ↔ i + 1 = w.menu.visibleLines := by
    have hordered := h.ordered
    have henabled := h.enabled
    omega
  constructor
  · rw [drawArrows, downIcon, upIcon, drawArrow_cell _ hy, drawArrow_cell _ hy,
      (hshows i hi).chars y hy]
    simp only [bodyCell, hfirst, hlast, decide_eq_true_eq, gt_iff_lt]
  · rw [drawArrows, downIcon, upIcon, drawArrow_invBit, drawArrow_invBit]
    exact (hshows i hi).mask y hy

theorem drawVisible_shows (h : Drawable P n w) (hcount : w.cur.numEntries = n)
    (htop : top = 0 ∨ top + w.menu.visibleLines ≤ n)
    (hselected : top + selected = w.cur.selected) :
    ∃ oled buf, drawVisible P w top selected (top > 0) (top + w.menu.visibleLines < n) =
        some (oled, buf) ∧
      ∀ i < w.menu.visibleLines, ∀ y < lcdCharPerLine,
        oled.buf (cell (w.menu.lineStart + i) y) = bodyCell P n w top i y ∧
        (invBit oled (w.menu.lineStart + i) y = true ↔ y < bodyMark P n w top i) := by
  obtain ⟨text, htext⟩ := Option.isSome_iff_exists.mp h.header
  obtain ⟨d, buf, hentries, hshows, -⟩ := drawEntries_shows h hcount htop hselected
    w.menu.visibleLines 0 (drawHeader w.oled text) w.buf (Nat.zero_add _) fun _ => rfl
  refine ⟨drawArrows w (top > 0) (top + w.menu.visibleLines < n) d, buf, ?_,
    fun i hi y hy => drawArrows_shows h (fun j hj => hshows j (Nat.zero_le j) hj) hi hy⟩
  rw [drawVisible_eq htext, hentries]
  rfl

/-! ### Counting first -/

theorem cur_counted (w : World σ) (n : Nat) :
    (w.setCur { w.cur with numEntries := n }).cur = { w.cur with numEntries := n } :=
  cur_setCur w _

theorem visibleLines_setCur (w : World σ) (s : MenuSave) :
    (w.setCur s).menu.visibleLines = w.menu.visibleLines := rfl

theorem Drawable.counted (h : Drawable P n w) :
    Drawable P n (w.setCur { w.cur with numEntries := n }) := by
  refine ⟨h.cur_eq, ?_, ?_, h.length, ?_, ?_, h.first, h.ordered, h.last, h.enabled, ?_, ?_⟩
  · rw [header_setCur h.cur_eq]
    exact h.header
  · rw [cur_counted]
    exact h.menu
  · rw [cur_counted]
    exact .inr rfl
  · rw [cur_counted]
    exact h.cursor
  · rw [cur_counted]
    exact h.texts
  · rw [cur_counted]
    exact h.drops

theorem entryText_counted (m : Nat) :
    entryText P (w.setCur { w.cur with numEntries := m }) i = entryText P w i := by
  rw [entryText, cur_counted]
  rfl

theorem entryLine_counted (m : Nat) :
    entryLine P (w.setCur { w.cur with numEntries := m }) i = entryLine P w i := by
  rw [entryLine, entryText_counted, cur_counted]
  rfl

/-- The reference screen does not depend on the count. -/
theorem bodyCell_counted (m y : Nat) :
    bodyCell P n (w.setCur { w.cur with numEntries := m }) top i y = bodyCell P n w top i y := by
  rw [bodyCell, bodyLine, entryLine_counted]
  rfl

theorem bodyMark_counted (m : Nat) :
    bodyMark P n (w.setCur { w.cur with numEntries := m }) top i = bodyMark P n w top i := by
  rw [bodyMark, entryText_counted, cur_counted]
  rfl

/-- Where the window is drawn from, and with which arrows. -/
theorem drawMenu_of_drawVisible (h : Drawable P n w) {oled : Ssd1306} {buf : Nat → UInt8}
    (htop : top = w.cur.selected + 1 - w.menu.visibleLines)
    (hvisible : drawVisible P (w.setCur { w.cur with numEntries := n }) top
      (w.cur.selected - top) (top > 0) (top + w.menu.visibleLines < n) = some (oled, buf)) :
    drawMenu P w =
      some { w.setCur { w.cur with numEntries := n } with oled := oled, buf := buf } := by
  have hlength := h.length
  have hcursor := h.cursor
  have htop' : (if w.cur.selected + 1 > w.menu.visibleLines then
      (w.cur.selected + 1 - w.menu.visibleLines) % 256 else 0) = top := by
    split <;> omega
  have hselected : (w.cur.selected + 256 - top) % 256 = w.cur.selected - top := by
    have hlines := h.visibleLines_pos
    omega
  have hbelow : (if n < w.menu.visibleLines then false
      else decide (top + w.menu.visibleLines < n)) =
        decide (top + w.menu.visibleLines < n) := by
    split
    · symm
      rw [decide_eq_false_iff_not]
      omega
    · rfl
  unfold drawMenu
  rw [count_of_isMenu h.menu (by omega) h.count]
  simp only [cur_counted, visibleLines_setCur, htop', hselected, hbelow, hvisible]

/-- `DrawMenu` draws the reference screen: a window of the menu around the cursor. -/
theorem drawMenu_renders (P : Program σ) (h : Drawable P n w) :
    ∃ w' top, drawMenu P w = some w' ∧
      top ≤ w.cur.selected ∧ w.cur.selected < top + w.menu.visibleLines ∧
      (top = 0 ∨ top + w.menu.visibleLines ≤ n) ∧
      ∀ i < w.menu.visibleLines, ∀ y < lcdCharPerLine,
        w'.oled.buf (cell (w.menu.lineStart + i) y) = bodyCell P n w top i y ∧
        (invBit w'.oled (w.menu.lineStart + i) y = true ↔ y < bodyMark P n w top i) := by
  have hcursor := h.cursor
  have hlines := h.visibleLines_pos
  -- the window ends at the cursor, or it starts at entry 0
  obtain ⟨top, htop⟩ : ∃ top, top = w.cur.selected + 1 - w.menu.visibleLines := ⟨_, rfl⟩
  have hwindow : top = 0 ∨ top + w.menu.visibleLines ≤ n := by omega
  have hcounted : (w.setCur { w.cur with numEntries := n }).cur.numEntries = n := by
    rw [cur_counted]
  have hsum : top + (w.cur.selected - top) =
      (w.setCur { w.cur with numEntries := n }).cur.selected := by
    rw [cur_counted]
    show top + (w.cur.selected - top) = w.cur.selected
    omega
  obtain ⟨oled, buf, hvisible, hcells⟩ :=
    drawVisible_shows h.counted hcounted hwindow hsum
  refine ⟨_, top, drawMenu_of_drawVisible h htop hvisible, by omega, by omega, hwindow,
    fun i hi y hy => ?_⟩
  obtain ⟨hcell, hmask⟩ := hcells i hi y hy
  rw [bodyCell_counted] at hcell
  rw [bodyMark_counted] at hmask
  exact ⟨hcell, hmask⟩

end Entries

/-! ### A menu of three entries -/

/-- Two `TYPE_BRANCH` entries and an enumeration. -/
def threeEntries : Program Unit :=
  { nestedApps with
    menus := fun _ i =>
      if i < 2 then .branch (some letterA) 1
      else if i = 2 then .dropdown (some letterA) 0 typeDropEnum
      else .dummy none
    enumText := fun _ _ => ⟨[79, 78], by decide⟩ }

/-- The cursor on the open enumeration, with the lines 2 and 3 for the menu. -/
def threeEntriesWorld : World Unit :=
  { nestedAppsWorld with
    menu := { menuCtor .zero 0 2 3 with stack := fun _ => ⟨0, 0, false, 2⟩ }
    opened := fun _ i => i = 2 }

theorem threeEntries_drawable : Drawable threeEntries 3 threeEntriesWorld := by
  have hcases : ∀ i < 3, i = 0 ∨ i = 1 ∨ i = 2 := fun i hi => by omega
  refine ⟨rfl, rfl, ⟨fun i hi => ?_, rfl⟩, by decide, .inl rfl, by decide, by decide, by decide,
    by decide, rfl, fun i hi text htext => ?_, fun i hi hdrop hopen => ?_⟩
  · rcases hcases i hi with rfl | rfl | rfl <;> decide
  · have hone : text.bytes.length = 1 := by
      rcases hcases i hi with rfl | rfl | rfl <;> cases htext <;> rfl
    omega
  · have hcursor : i = 2 := of_decide_eq_true hopen
    subst hcursor
    exact ⟨rfl, by decide⟩

/-- The window starts at entry 1, so there is an arrow in the last column of line 2, and line 3 has
    the value of the enumeration, inverted. -/
theorem drawMenu_renders_three_entries :
    ∃ w', drawMenu threeEntries threeEntriesWorld = some w' ∧ w'.oled.buf (cell 2 20) = 1 ∧
      w'.oled.buf (cell 3 1) = 79 ∧ invBit w'.oled 3 2 = true := by
  obtain ⟨w', top, hdraw, hle, hlt, hwindow, hcells⟩ :=
    drawMenu_renders threeEntries threeEntries_drawable
  have hle' : top ≤ 2 := hle
  have hlt' : 2 < top + 2 := hlt
  have hwindow' : top = 0 ∨ top + 2 ≤ 3 := hwindow
  obtain rfl : top = 1 := by omega
  refine ⟨w', hdraw, ?_, ?_, ?_⟩
  · exact (hcells 0 (by decide) 20 (by decide)).1
  · exact (hcells 1 (by decide) 1 (by decide)).1
  · exact (hcells 1 (by decide) 2 (by decide)).2.mpr (by decide)

end RfPirate
