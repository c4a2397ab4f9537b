/-
Module: RfPirate.Proofs.LineEditor
Layer: Proofs
Purpose: The receive side of `UsbSerial` against a reference line editor. `buffer_rx` is first shown
  to be an editor over lists of bytes; that editor and the reference differ only on a backspace
  typed on the empty line, which `buffer_rx` stores. The lines they produce are then equal exactly
  when no line ends with such a backspace still in it and no line contains a NUL.
Main exports: refLines, postedLines, EditorLaw, NoStrayBackspace, lineEditor_iff
-/
import RfPirate.Core.UsbSerial

namespace RfPirate

open Lib Lib.CString

/-! ### Line editors -/

/-- One byte given to an editor that changes the line by `edit`: the line after it, and the line it
    ended, if any. -/
def editByte (edit : List UInt8 → UInt8 → List UInt8) (line : List UInt8) (b : UInt8) :
    List UInt8 × List (List UInt8) :=
  if isEol b then ([], [line])
  else if (edit line b).length = usbSerialBufSz - 1 then ([], [edit line b])
  else (edit line b, [])

/-- The lines an editor ends over a stream of bytes. -/
def editLines (edit : List UInt8 → UInt8 → List UInt8) : List UInt8 → List UInt8 →
    List (List UInt8)
  | _, [] => []
  | line, b :: bs => (editByte edit line b).2 ++ editLines edit (editByte edit line b).1 bs

section EditLines

variable {edit : List UInt8 → UInt8 → List UInt8} {line bs : List UInt8} {b : UInt8}

theorem editLines_eol (h : isEol b = true) :
    editLines edit line (b :: bs) = line :: editLines edit [] bs := by
  simp [editLines, editByte, h]

theorem editLines_full (h : isEol b = false) (hfull : (edit line b).length = usbSerialBufSz - 1) :
    editLines edit line (b :: bs) = edit line b :: editLines edit [] bs := by
  simp [editLines, editByte, h, hfull]

theorem editLines_short (h : isEol b = false) (hroom : (edit line b).length ≠ usbSerialBufSz - 1) :
    editLines edit line (b :: bs) = editLines edit (edit line b) bs := by
  simp [editLines, editByte, h, hroom]

end EditLines

/-- The reference: backspace removes the last character and does nothing on the empty line. -/
def refEdit (line : List UInt8) (b : UInt8) : List UInt8 :=
  if b = charBs then line.dropLast else line ++ [b]

/-- The lines of the reference editor. -/
def refLines (stream : List UInt8) : List (List UInt8) := editLines refEdit [] stream

/-- What `buffer_rx` does to the line: on the empty line a backspace is added. -/
def codeEdit (line : List UInt8) (b : UInt8) : List UInt8 :=
  if b = charBs ∧ line ≠ [] then line.dropLast else line ++ [b]

/-! ### The posted lines -/

/-- A posted `string_t` as its reader sees it: the data up to the NUL, and `len`. -/
def StringT.read (str : StringT) : List UInt8 × Nat := (cstr usbSerialBufSz str.data, str.len)

/-- The steps of `UsbSerial::process`: a byte goes to `buffer_rx`, or the transmit part runs. -/
inductive ProcessStep where
  | receive (b : UInt8)
  | send

/-- The lines `buffer_rx` posts over calls of `process`. Each of them is consumed, which may change
    its buffer in any way, before the next byte arrives. -/
def postedLines (o : PostInc) (consume : StringT → StringT) : UsbSerial → List ProcessStep →
    List (List UInt8 × Nat)
  | _, [] => []
  | s, .receive b :: steps =>
      let r := bufferRx o s b
      let consumed : UsbSerial :=
        { r.1 with
          rxQ := fun p => if p ∈ posts r.2 then consume (r.1.rxQ p) else r.1.rxQ p }
      (posts r.2).map (fun p => (r.1.rxQ p).read) ++ postedLines o consume consumed steps
  | s, .send :: steps => postedLines o consume (processTx o s).1 steps

/-- One bank of the endpoint, as `process` finds it. -/
structure Bank where
  bytes : List UInt8
  fits : bytes.length ≤ cdcTxrxEpsize

/-- One call of `process` for each bank. -/
def processSteps (banks : List Bank) : List ProcessStep :=
  banks.flatMap fun bank => (received bank.bytes).map .receive ++ [.send]

/-- The posted lines equal those of the reference, over all the bytes of the banks. -/
def EditorLaw (o : PostInc) (consume : StringT → StringT) (s : UsbSerial) (banks : List Bank) :
    Prop :=
  let lines := postedLines o consume s (processSteps banks)
  lines = (refLines (banks.flatMap Bank.bytes)).map (fun line => (line, line.length + 1)) ∧
    ∀ line ∈ lines, line.2 ≤ usbSerialBufSz

theorem received_bank (bank : Bank) : received bank.bytes = bank.bytes := by
  have hfits := bank.fits
  simp only [cdcTxrxEpsize] at hfits
  have hall : bAvail bank.bytes.length = bank.bytes.length := by
    have hmod : bank.bytes.length % 256 = bank.bytes.length := Nat.mod_eq_of_lt (by omega)
    rw [bAvail, hmod, if_pos (by omega)]
  rw [received, hall, List.take_length]

/-- The bytes received over the steps. -/
def receivedBytes (steps : List ProcessStep) : List UInt8 :=
  steps.filterMap fun
    | .receive b => some b
    | .send => none

theorem receivedBytes_append (xs ys : List ProcessStep) :
    receivedBytes (xs ++ ys) = receivedBytes xs ++ receivedBytes ys := List.filterMap_append

theorem receivedBytes_map (bs : List UInt8) : receivedBytes (bs.map .receive) = bs := by
  induction bs with
  | nil => rfl
  | cons b bs ih => exact congrArg (b :: ·) ih

/-- How the bytes are split over calls of `process` makes no difference to what is received. -/
theorem receivedBytes_processSteps (banks : List Bank) :
    receivedBytes (processSteps banks) = banks.flatMap Bank.bytes := by
  induction banks with
  | nil => rfl
  | cons bank banks ih =>
      have hsteps : processSteps (bank :: banks) =
          (received bank.bytes).map .receive ++ ([.send] ++ processSteps banks) := by
        simp [processSteps]
      rw [hsteps, receivedBytes_append, receivedBytes_append, receivedBytes_map, received_bank, ih]
      rfl

/-! ### `buffer_rx` is the editor `codeEdit` -/

/-- The buffer being filled holds `text`. -/
structure EditView (s : UsbSerial) (text : List UInt8) : Prop where
  idx : s.rxIdx = text.length
  data : ∀ i (h : i < text.length), (s.rxQ s.rxP).data i = text[i]

theorem EditView.empty {s : UsbSerial} (h : s.rxIdx = 0) : EditView s [] :=
  ⟨h, fun i hi => absurd hi (Nat.not_lt_zero i)⟩

theorem EditView.processTx {s : UsbSerial} {line : List UInt8} (o : PostInc)
    (h : EditView s line) : EditView (processTx o s).1 line := by
  unfold RfPirate.processTx
  split <;> exact ⟨h.idx, h.data⟩

theorem codeEdit_length {line : List UInt8} (b : UInt8) (h : line.length < usbSerialBufSz - 1) :
    (codeEdit line b).length < usbSerialBufSz := by
  unfold codeEdit
  split
  · rw [List.length_dropLast]
    omega
  · rw [List.length_append, List.length_singleton]
    omega

theorem EditView.edit {s : UsbSerial} {line : List UInt8} (h : EditView s line)
    (hlen : line.length < usbSerialBufSz - 1) (b : UInt8) :
    EditView (s.editRx b) (codeEdit line b) := by
  have hpos : s.rxIdx > 0 ↔ line ≠ [] := by
    rw [h.idx]
    exact List.length_pos_iff
  by_cases hback : b = charBs ∧ line ≠ []
  · have hcode : b = charBs ∧ s.rxIdx > 0 := ⟨hback.1, hpos.mpr hback.2⟩
    simp only [UsbSerial.editRx, if_pos hcode, codeEdit, if_pos hback]
    refine ⟨?_, ?_⟩
    · simp [h.idx]
    · intro i hi
      rw [List.length_dropLast] at hi
      rw [List.getElem_dropLast]
      exact h.data i (by omega)
  · have hcode : ¬ (b = charBs ∧ s.rxIdx > 0) := by rwa [hpos]
    simp only [UsbSerial.editRx, if_neg hcode, codeEdit, if_neg hback]
    refine ⟨?_, ?_⟩
    · simp only [usbSerialBufSz] at hlen
      show (s.rxIdx + 1) % 256 = _
      rw [h.idx, List.length_append, List.length_singleton]
      omega
    · intro i hi
      simp only [UsbSerial.storeRx, Function.update_self, h.idx]
      by_cases hlast : i = line.length
      · subst hlast
        simp
      · have hold : i < line.length := by
          rw [List.length_append, List.length_singleton] at hi
          omega
        rw [Function.update_of_ne hlast, List.getElem_append_left hold]
        exact h.data i hold

/-- The line that is ended is posted with its length, and reads as itself up to its first NUL. -/
theorem EditView.dispatch_read {s : UsbSerial} {line : List UInt8} (o : PostInc)
    (h : EditView s line) (hlen : line.length < usbSerialBufSz) :
    ((bufferRxDispatch o s).1.rxQ s.rxP).read = (line.takeWhile (· ≠ 0), line.length + 1) := by
  have hread : cstr usbSerialBufSz (Function.update (s.rxQ s.rxP).data line.length 0) =
      line.takeWhile (· ≠ 0) := by
    apply cstr_of_agree
    · intro i hi
      rw [Function.update_of_ne (Nat.ne_of_lt hi)]
      exact h.data i hi
    · simp
    · exact hlen
  simp only [usbSerialBufSz] at hlen
  have hmod : (line.length + 1) % 256 = line.length + 1 := Nat.mod_eq_of_lt (by omega)
  simp [StringT.read, bufferRxDispatch, h.idx, hread, hmod]

/-- `buffer_rx` posts the lines of `codeEdit`, read as C strings. -/
theorem postedLines_eq (o : PostInc) (consume : StringT → StringT) (steps : List ProcessStep) :
    ∀ {s : UsbSerial} {line : List UInt8}, EditView s line → line.length < usbSerialBufSz - 1 →
      postedLines o consume s steps =
        (editLines codeEdit line (receivedBytes steps)).map
          fun l => (l.takeWhile (· ≠ 0), l.length + 1) := by
  induction steps with
  | nil =>
      intro s line _ _
      rfl
  | cons step steps ih =>
      intro s line h hlen
      have hempty : ([] : List UInt8).length < usbSerialBufSz - 1 := by decide
      cases step with
      | send => exact ih (h.processTx o) hlen
      | receive b =>
          have hedit := h.edit hlen b
          change _ = (editLines codeEdit line (b :: receivedBytes steps)).map _
          cases heol : isEol b with
          | true =>
              have hread := h.dispatch_read o (by omega)
              rw [editLines_eol heol]
              simp only [postedLines, bufferRx_eol heol, posts_bufferRxDispatch, List.map_cons,
                List.map_nil, hread, List.singleton_append]
              rw [ih (EditView.empty rfl) hempty]
          | false =>
              by_cases hfull : (codeEdit line b).length = usbSerialBufSz - 1
              · have hfull' : (s.editRx b).rxIdx = usbSerialBufSz - 1 := hedit.idx.trans hfull
                obtain ⟨hstate, hposts⟩ := bufferRx_full (o := o) heol hfull'
                have hread := hedit.dispatch_read o (codeEdit_length b hlen)
                rw [editRx_rxP] at hread
                rw [editLines_full heol hfull]
                simp only [postedLines, hposts, hstate, List.map_cons, List.map_nil, hread,
                  List.singleton_append]
                rw [ih (EditView.empty rfl) hempty]
              · have hfull' : (s.editRx b).rxIdx ≠ usbSerialBufSz - 1 := fun hidx =>
                  hfull (hedit.idx.symm.trans hidx)
                obtain ⟨hstate, hposts⟩ := bufferRx_edit (o := o) heol hfull'
                have hshort := codeEdit_length b hlen
                rw [editLines_short heol hfull]
                simp only [postedLines, hposts, hstate, List.map_nil, List.nil_append,
                  List.not_mem_nil, if_false]
                exact ih hedit (by omega)

/-! ### When the two editors agree -/

/-- No line ends with a backspace in it that was typed on the empty line. `stray` says whether the
    current line has one, `k` is the length of the line without it. -/
def NoStrayBackspace : Bool → Nat → List UInt8 → Prop
  | _, _, [] => True
  | stray, k, b :: bs =>
      if isEol b then stray = false ∧ NoStrayBackspace false 0 bs
      else if b = charBs then
        if k = 0 then NoStrayBackspace (!stray) 0 bs else NoStrayBackspace stray (k - 1) bs
      else if k + 1 + stray.toNat = usbSerialBufSz - 1 then
        stray = false ∧ NoStrayBackspace false 0 bs
      else NoStrayBackspace stray (k + 1) bs

/-- The line `codeEdit` has when the reference has `line`. -/
def strayLine (stray : Bool) (line : List UInt8) : List UInt8 :=
  if stray then charBs :: line else line

theorem length_strayLine (stray : Bool) (line : List UInt8) :
    (strayLine stray line).length = line.length + stray.toNat := by
  cases stray <;> rfl

theorem codeEdit_char (stray : Bool) (line : List UInt8) {b : UInt8} (h : b ≠ charBs) :
    codeEdit (strayLine stray line) b = strayLine stray (line ++ [b]) := by
  cases stray <;> simp [codeEdit, strayLine, h]

theorem codeEdit_backspace (stray : Bool) {line : List UInt8} (h : line ≠ []) :
    codeEdit (strayLine stray line) charBs = strayLine stray line.dropLast := by
  cases stray with
  | false => simp [codeEdit, strayLine, h]
  | true => simp [codeEdit, strayLine, List.dropLast_cons_of_ne_nil h]

theorem codeEdit_backspace_empty (stray : Bool) :
    codeEdit (strayLine stray []) charBs = strayLine (!stray) [] := by
  cases stray <;> rfl

/-- A line of the reference has no backspace in it. -/
theorem not_mem_editByte {line : List UInt8} (b : UInt8) (h : charBs ∉ line) :
    charBs ∉ (editByte refEdit line b).1 ∧ ∀ l ∈ (editByte refEdit line b).2, charBs ∉ l := by
  have hedit : charBs ∉ refEdit line b := by
    unfold refEdit
    split
    · exact fun hmem => h (List.dropLast_subset _ hmem)
    · rename_i hne
      simp [h, Ne.symm hne]
  unfold editByte
  split
  · simpa using h
  · split
    · simpa using hedit
    · simpa using hedit

theorem not_mem_editLines {bs line : List UInt8} (h : charBs ∉ line) :
    ∀ l ∈ editLines refEdit line bs, charBs ∉ l := by
  induction bs generalizing line with
  | nil => simp [editLines]
  | cons b bs ih =>
      obtain ⟨hline, hended⟩ := not_mem_editByte b h
      intro l hl
      rcases List.mem_append.mp hl with hl | hl
      · exact hended l hl
      · exact ih hline l hl

/-- How a posted line of `codeEdit` reads, and what the reference expects to read. -/
def readOf (line : List UInt8) : List UInt8 × Nat := (line.takeWhile (· ≠ 0), line.length + 1)
def refOf (line : List UInt8) : List UInt8 × Nat := (line, line.length + 1)

theorem readOf_eq_refOf_iff {line : List UInt8} : readOf line = refOf line ↔ 0 ∉ line := by
  simp only [readOf, refOf, Prod.mk.injEq, and_true]
  rw [List.takeWhile_eq_self_iff]
  simp only [ne_eq, decide_eq_true_eq]
  exact ⟨fun h hzero => h 0 hzero rfl, fun h x hx hzero => h (hzero ▸ hx)⟩

/-- Reading a line with a stray backspace never gives a line of the reference. -/
theorem readOf_stray_ne {line l : List UInt8} (h : charBs ∉ l) :
    readOf (strayLine true line) ≠ refOf l := by
  intro heq
  have htext : charBs :: line.takeWhile (· ≠ 0) = l := by
    simpa [readOf, refOf, strayLine, charBs] using congrArg Prod.fst heq
  exact h (htext ▸ List.mem_cons_self)

theorem map_readOf_stray_ne {line : List UInt8} {rest : List (List UInt8 × Nat)}
    {ls : List (List UInt8)} (h : ∀ l ∈ ls, charBs ∉ l) :
    readOf (strayLine true line) :: rest ≠ ls.map refOf := by
  cases ls with
  | nil => simp
  | cons l ls =>
      intro heq
      exact readOf_stray_ne (h l List.mem_cons_self) (List.cons.inj heq).1

/-- Lists of lines that start with equal texts agree when the rests do. -/
theorem map_cons_iff {line : List UInt8} {ls rs : List (List UInt8)} :
    (line :: ls).map readOf = (line :: rs).map refOf ↔ 0 ∉ line ∧ ls.map readOf = rs.map refOf := by
  simp only [List.map_cons, List.cons.injEq, readOf_eq_refOf_iff]

/-- The two editors end the same lines over `bs`. -/
def Agree (stray : Bool) (line bs : List UInt8) : Prop :=
  (editLines codeEdit (strayLine stray line) bs).map readOf = (editLines refEdit line bs).map refOf

/-- No stray backspace is in an ended line, and no ended line contains a NUL. -/
def Clean (stray : Bool) (line bs : List UInt8) : Prop :=
  NoStrayBackspace stray line.length bs ∧ ∀ l ∈ editLines refEdit line bs, 0 ∉ l

/-- When both editors end the line, they agree on it exactly if it has neither a stray backspace nor
    a NUL. -/
theorem agree_ended_iff {stray : Bool} {line bs : List UInt8} (hline : charBs ∉ line)
    (hfresh : Agree false [] bs ↔ Clean false [] bs) :
    ((strayLine stray line :: editLines codeEdit [] bs).map readOf =
        (line :: editLines refEdit [] bs).map refOf ↔
      (stray = false ∧ NoStrayBackspace false 0 bs) ∧
        ∀ l ∈ line :: editLines refEdit [] bs, 0 ∉ l) := by
  cases stray with
  | true =>
      have hlines : ∀ l ∈ line :: editLines refEdit [] bs, charBs ∉ l := by
        intro l hl
        rcases List.mem_cons.mp hl with rfl | hl
        · exact hline
        · exact not_mem_editLines (by simp) l hl
      have hne : readOf (strayLine true line) :: (editLines codeEdit [] bs).map readOf ≠
          (line :: editLines refEdit [] bs).map refOf := map_readOf_stray_ne hlines
      exact iff_of_false hne (fun h => Bool.noConfusion h.1.1)
  | false =>
      have hrest : (editLines codeEdit [] bs).map readOf = (editLines refEdit [] bs).map refOf ↔
          NoStrayBackspace false 0 bs ∧ ∀ l ∈ editLines refEdit [] bs, 0 ∉ l := hfresh
      rw [show strayLine false line = line from rfl, map_cons_iff, hrest, List.forall_mem_cons]
      constructor
      · rintro ⟨hzero, hstray, hlines⟩
        exact ⟨⟨rfl, hstray⟩, hzero, hlines⟩
      · rintro ⟨⟨_, hstray⟩, hzero, hlines⟩
        exact ⟨hzero, hstray, hlines⟩

/-- The case of a backspace: `codeEdit` stores or removes a stray one on the empty line. -/
theorem agree_backspace_iff {stray : Bool} {line bs : List UInt8}
    (hlen : line.length + stray.toNat < usbSerialBufSz - 1)
    (hempty : line = [] → (Agree (!stray) [] bs ↔ Clean (!stray) [] bs))
    (hdrop : line ≠ [] → (Agree stray line.dropLast bs ↔ Clean stray line.dropLast bs)) :
    Agree stray line (charBs :: bs) ↔ Clean stray line (charBs :: bs) := by
  have heol : isEol charBs = false := rfl
  have href : refEdit line charBs = line.dropLast := by simp [refEdit]
  have hroom : (refEdit line charBs).length ≠ usbSerialBufSz - 1 := by
    rw [href, List.length_dropLast]
    omega
  unfold Agree Clean
  rw [editLines_short heol hroom, href]
  by_cases hnil : line = []
  · subst hnil
    have hshort : (codeEdit (strayLine stray []) charBs).length ≠ usbSerialBufSz - 1 := by
      cases stray <;> decide
    rw [editLines_short heol hshort, codeEdit_backspace_empty]
    simpa [NoStrayBackspace, heol, Agree, Clean] using hempty rfl
  · have hcode := codeEdit_backspace stray hnil
    have hshort : (codeEdit (strayLine stray line) charBs).length ≠ usbSerialBufSz - 1 := by
      rw [hcode, length_strayLine, List.length_dropLast]
      omega
    rw [editLines_short heol hshort, hcode]
    simpa [NoStrayBackspace, heol, hnil, Agree, Clean] using hdrop hnil

/-- The case of a character: with a stray backspace the buffer is full one character early. -/
theorem agree_char_iff {stray : Bool} {line bs : List UInt8} {b : UInt8} (heol : isEol b = false)
    (hback : b ≠ charBs) (hline : charBs ∉ line)
    (hlen : line.length + stray.toNat < usbSerialBufSz - 1)
    (hfresh : Agree false [] bs ↔ Clean false [] bs)
    (hnext : (line ++ [b]).length + stray.toNat < usbSerialBufSz - 1 →
      (Agree stray (line ++ [b]) bs ↔ Clean stray (line ++ [b]) bs)) :
    Agree stray line (b :: bs) ↔ Clean stray line (b :: bs) := by
  have href : refEdit line b = line ++ [b] := by simp [refEdit, hback]
  have hmem : charBs ∉ line ++ [b] := by simp [hline, Ne.symm hback]
  have hcode := codeEdit_char stray line hback
  have hsucc : (line ++ [b]).length = line.length + 1 := by simp
  have hcodeLen : (codeEdit (strayLine stray line) b).length = line.length + 1 + stray.toNat := by
    rw [hcode, length_strayLine, hsucc]
  unfold Agree Clean
  simp only [NoStrayBackspace, heol, Bool.false_eq_true, if_false, hback]
  by_cases hfull : line.length + 1 + stray.toNat = usbSerialBufSz - 1
  · rw [editLines_full heol (hcodeLen.trans hfull), hcode, if_pos hfull]
    cases stray with
    | true =>
        -- the reference has room for one more character here
        have hroom : (refEdit line b).length ≠ usbSerialBufSz - 1 := by
          rw [href, hsucc]
          simp only [Bool.toNat_true] at hfull
          omega
        rw [editLines_short heol hroom, href]
        exact iff_of_false (map_readOf_stray_ne (not_mem_editLines hmem))
          (fun h => Bool.noConfusion h.1.1)
    | false =>
        have hfull' : (refEdit line b).length = usbSerialBufSz - 1 := by
          rw [href, hsucc]
          exact hfull
        rw [editLines_full heol hfull', href]
        exact agree_ended_iff hmem hfresh
  · have hshort : (codeEdit (strayLine stray line) b).length ≠ usbSerialBufSz - 1 := by
      rwa [hcodeLen]
    have hroom : (refEdit line b).length ≠ usbSerialBufSz - 1 := by
      rw [href, hsucc]
      omega
    rw [editLines_short heol hshort, editLines_short heol hroom, hcode, href, if_neg hfull, ← hsucc]
    exact hnext (by omega)

/-- The two editors end the same lines exactly when the stream is clean. -/
theorem agree_iff_clean (bs : List UInt8) : ∀ (stray : Bool) (line : List UInt8),
    charBs ∉ line → line.length + stray.toNat < usbSerialBufSz - 1 →
      (Agree stray line bs ↔ Clean stray line bs) := by
  induction bs with
  | nil =>
      intro stray line _ _
      simp [Agree, Clean, editLines, NoStrayBackspace]
  | cons b bs ih =>
      intro stray line hline hlen
      have hfresh := ih false [] (by simp) (by decide)
      cases heol : isEol b with
      | true =>
          unfold Agree Clean
          rw [editLines_eol heol, editLines_eol heol]
          simpa only [NoStrayBackspace, heol, if_true] using agree_ended_iff hline hfresh
      | false =>
          by_cases hback : b = charBs
          · subst hback
            apply agree_backspace_iff hlen
            · intro _
              exact ih (!stray) [] (by simp) (by cases stray <;> decide)
            · intro _
              refine ih stray line.dropLast (fun h => hline (List.dropLast_subset _ h)) ?_
              rw [List.length_dropLast]
              omega
          · exact agree_char_iff heol hback hline hlen hfresh (ih stray (line ++ [b])
              (by simp [hline, Ne.symm hback]))

/-- Lines of at most `USB_SERIAL_BUF_SZ - 1` characters. -/
theorem length_editLines_le {bs line : List UInt8} (h : line.length < usbSerialBufSz - 1) :
    ∀ l ∈ editLines refEdit line bs, l.length < usbSerialBufSz := by
  induction bs generalizing line with
  | nil => simp [editLines]
  | cons b bs ih =>
      have hempty : ([] : List UInt8).length < usbSerialBufSz - 1 := by decide
      have hedit : (refEdit line b).length < usbSerialBufSz := by
        unfold refEdit
        split
        · rw [List.length_dropLast]
          omega
        · rw [List.length_append, List.length_singleton]
          omega
      intro l hl
      cases heol : isEol b with
      | true =>
          rw [editLines_eol heol] at hl
          rcases List.mem_cons.mp hl with rfl | hl
          · omega
          · exact ih hempty l hl
      | false =>
          by_cases hfull : (refEdit line b).length = usbSerialBufSz - 1
          · rw [editLines_full heol hfull] at hl
            rcases List.mem_cons.mp hl with rfl | hl
            · exact hedit
            · exact ih hempty l hl
          · rw [editLines_short heol hfull] at hl
            exact ih (by omega) l hl

/-- `buffer_rx` ends the lines of the reference editor exactly when no line ends with a backspace in
    it that was typed on the empty line, and no line contains a NUL. -/
theorem lineEditor_iff (o : PostInc) (consume : StringT → StringT) (mem : UsbSerial)
    (banks : List Bank) :
    EditorLaw o consume (usbSerialCtor mem) banks ↔
      NoStrayBackspace false 0 (banks.flatMap Bank.bytes) ∧
      ∀ line ∈ refLines (banks.flatMap Bank.bytes), 0 ∉ line := by
  have hempty : ([] : List UInt8).length < usbSerialBufSz - 1 := by decide
  have hposted := postedLines_eq o consume (processSteps banks)
    (s := usbSerialCtor mem) (EditView.empty rfl) hempty
  rw [receivedBytes_processSteps] at hposted
  have hagree := agree_iff_clean (banks.flatMap Bank.bytes) false [] (by simp) (by decide)
  unfold EditorLaw
  rw [hposted]
  constructor
  · rintro ⟨heq, _⟩
    exact hagree.mp heq
  · intro h
    have heq := hagree.mpr h
    refine ⟨heq, ?_⟩
    intro line hline
    rw [show (editLines codeEdit [] (banks.flatMap Bank.bytes)).map
      (fun l => (l.takeWhile (· ≠ 0), l.length + 1)) = _ from heq] at hline
    obtain ⟨l, hl, rfl⟩ := List.mem_map.mp hline
    exact length_editLines_le hempty l hl

/-- Backspace and then CR on the empty line posts the backspace as a line of one character. -/
theorem lineEditor_fails :
    ¬ EditorLaw .unchanged id (usbSerialCtor .zero) [⟨[charBs, charCr], by decide⟩] ∧
      ¬ EditorLaw .incremented id (usbSerialCtor .zero) [⟨[charBs, charCr], by decide⟩] := by
  constructor <;>
  · rw [EditorLaw]
    decide

end RfPirate
