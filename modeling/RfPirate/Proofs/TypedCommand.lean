/-
Module: RfPirate.Proofs.TypedCommand
Layer: Proofs
Purpose: A command typed as words with single spaces between them, from the bytes given to
  `buffer_rx` to the tokens that `cmdp_parse_cmd` looks up: the words come back one for one.
Main exports: Word, typedLine, HoldsWords, tokLoop_words, typedCommand_tokens
-/
import RfPirate.Proofs.LineEditor
import RfPirate.Proofs.Tokenizer

namespace RfPirate

open Lib Lib.CString

/-- A word of a command: bytes that neither end a token nor edit the line. -/
structure Word where
  bytes : List UInt8
  nonempty : bytes ≠ []
  noSep : ∀ b ∈ bytes, isSep b = false
  noEdit : ∀ b ∈ bytes, isEol b = false ∧ b ≠ charBs

/-! ### The tokenizer over words -/

/-- Words stand at index `i` of the line, each with a separator behind it. -/
def HoldsWords (d : Nat → UInt8) : Nat → List Word → Prop
  | _, [] => True
  | i, w :: ws =>
      (∀ j, ∀ h : j < w.bytes.length, d (i + j) = w.bytes[j]) ∧
      isSep (d (i + w.bytes.length)) = true ∧ HoldsWords d (i + w.bytes.length + 1) ws

/-- The bytes of words, each with its separator. -/
def wordsLen : List Word → Nat
  | [] => 0
  | w :: ws => w.bytes.length + (wordsLen ws + 1)

/-- Where a word of the list starts. -/
def wordStart (ws : List Word) (k : Nat) : Nat := wordsLen (ws.take k)

section Words

variable {d : Nat → UInt8} {i : Nat} {t : TokState}

/-- The loop goes over bytes that are no separators. -/
theorem tokLoop_skip (h : TokInv d i t) (m n : Nat) (hskip : ∀ j < m, isSep (d (i + j)) = false) :
    tokLoop (m + n) i t = tokLoop n (i + m) t ∧ TokInv d (i + m) t := by
  induction m generalizing i with
  | zero => exact ⟨by rw [Nat.zero_add, Nat.add_zero], h⟩
  | succ m ih =>
      have hfirst : isSep (d i) = false := hskip 0 (Nat.zero_lt_succ m)
      have hstay : tokStep t i = t := by simp [tokStep, h.data_at, hfirst]
      have hnext : TokInv d (i + 1) t := hstay ▸ h.step
      have hrest : ∀ j < m, isSep (d (i + 1 + j)) = false := by
        intro j hj
        rw [Nat.add_assoc, Nat.add_comm 1 j]
        exact hskip (j + 1) (by omega)
      obtain ⟨hloop, hinv⟩ := ih hnext hrest
      have hat : i + 1 + m = i + (m + 1) := by omega
      rw [hat] at hloop hinv
      refine ⟨?_, hinv⟩
      rw [← hloop, Nat.succ_add, tokLoop, hstay]
      split
      · rfl
      · rename_i hfull
        cases hmn : m + n with
        | zero => rfl
        | succ r => rw [tokLoop, if_neg hfull]

/-- A separator behind the command ends an argument. -/
theorem tokStep_arg (h : TokInv d i t) (hsep : isSep (d i) = true) (hcmd : t.token.cmd ≠ none) :
    tokStep t i =
      { data := Function.update t.data i 0
        tok := i + 1
        token := { t.token with arg := Function.update t.token.arg t.argIdx (some t.tok) }
        argIdx := t.argIdx + 1 } := by
  obtain ⟨c, hc⟩ := Option.ne_none_iff_exists'.mp hcmd
  simp [tokStep, h.data_at, hsep, hc]

/-- What the loop makes of the argument words: the arguments are their starts, as far as there is
    room, and the other pointers stay as they are. -/
structure ArgsFrom (ws : List Word) (i : Nat) (t t' : TokState) : Prop where
  argIdx : t'.argIdx = min (t.argIdx + ws.length) maxArgs
  args : ∀ k < ws.length, t.argIdx + k < maxArgs →
    t'.token.arg (t.argIdx + k) = some (i + wordStart ws k)
  others : ∀ k, k < t.argIdx ∨ t'.argIdx ≤ k → t'.token.arg k = t.token.arg k

theorem ArgsFrom.cons {w : Word} {ws : List Word} {t' : TokState} {data : Nat → UInt8}
    (h : ArgsFrom ws (i + w.bytes.length + 1)
      { data := data
        tok := i + w.bytes.length + 1
        token := { t.token with arg := Function.update t.token.arg t.argIdx (some t.tok) }
        argIdx := t.argIdx + 1 } t')
    (hfree : t.argIdx < maxArgs) (htok : t.tok = i) : ArgsFrom (w :: ws) i t t' := by
  have hidx : t'.argIdx = min (t.argIdx + (w :: ws).length) maxArgs := by
    rw [h.argIdx, List.length_cons]
    simp only []
    omega
  refine ⟨hidx, fun k hk hroom => ?_, fun k hk => ?_⟩
  · cases k with
    | zero =>
        have hfirst := h.others t.argIdx (.inl (Nat.lt_succ_self _))
        rw [Nat.add_zero, hfirst, wordStart, List.take_zero, htok]
        exact Function.update_self _ _ _
    | succ k =>
        have hlater := h.args k (Nat.lt_of_succ_lt_succ hk) (by simp only []; omega)
        have hat : t.argIdx + (k + 1) = t.argIdx + 1 + k := by omega
        have hstart : i + wordStart (w :: ws) (k + 1) =
            i + w.bytes.length + 1 + wordStart ws k := by
          rw [wordStart, List.take_succ_cons, wordsLen, wordStart]
          omega
        rw [hat, hstart]
        exact hlater
  · have hother := h.others k (by simp only []; omega)
    have hne : k ≠ t.argIdx := by
      rw [hidx, List.length_cons] at hk
      omega
    rw [hother]
    exact Function.update_of_ne hne _ _

theorem tokLoop_words (ws : List Word) (h : TokInv d i t) (hold : HoldsWords d i ws)
    (htok : t.tok = i) (hcmd : t.token.cmd ≠ none) (hroom : t.argIdx ≤ maxArgs) :
    ArgsFrom ws i t (tokLoop (wordsLen ws) i t) := by
  induction ws generalizing i t with
  | nil =>
      have hnone : tokLoop (wordsLen []) i t = t := rfl
      rw [hnone]
      refine ⟨?_, fun k hk => absurd hk (Nat.not_lt_zero k), fun _ _ => rfl⟩
      rw [List.length_nil, Nat.add_zero, Nat.min_eq_left hroom]
  | cons w ws ih =>
      obtain ⟨hword, hsep, hrest⟩ := hold
      by_cases hfree : t.argIdx < maxArgs
      · have hskip : ∀ j < w.bytes.length, isSep (d (i + j)) = false := by
          intro j hj
          rw [hword j hj]
          exact w.noSep _ (List.getElem_mem hj)
        obtain ⟨hloop, hinv⟩ := tokLoop_skip h w.bytes.length (wordsLen ws + 1) hskip
        have hstep := tokStep_arg hinv hsep hcmd
        rw [wordsLen, hloop, tokLoop, if_pos hfree]
        have hargs := ih hinv.step hrest (by rw [hstep]) (by rw [hstep]; exact hcmd)
          (by rw [hstep]; exact hfree)
        generalize tokLoop (wordsLen ws) (i + w.bytes.length + 1) (tokStep t (i + w.bytes.length)) =
          t' at hargs
        rw [hstep] at hargs
        exact hargs.cons hfree htok
      · have hfull : t.argIdx = maxArgs := Nat.le_antisymm hroom (Nat.le_of_not_lt hfree)
        have hstop : tokLoop (wordsLen (w :: ws)) i t = t := by
          rw [wordsLen, ← Nat.add_assoc, tokLoop, if_neg hfree]
        rw [hstop]
        refine ⟨?_, fun k _ hk => absurd (Nat.le_add_right t.argIdx k) (by omega), fun _ _ => rfl⟩
        rw [hfull]
        exact (Nat.min_eq_right (Nat.le_add_right _ _)).symm

/-- What stands at the start of a word and behind it. -/
theorem HoldsWords.word {ws : List Word} (h : HoldsWords d i ws) {k : Nat} (hk : k < ws.length) :
    (∀ j, ∀ hj : j < ws[k].bytes.length, d (i + wordStart ws k + j) = ws[k].bytes[j]) ∧
      isSep (d (i + wordStart ws k + ws[k].bytes.length)) = true := by
  induction ws generalizing i k with
  | nil => exact absurd hk (Nat.not_lt_zero k)
  | cons w ws ih =>
      obtain ⟨hword, hsep, hrest⟩ := h
      cases k with
      | zero => exact ⟨hword, hsep⟩
      | succ k =>
          have hstart : i + wordStart (w :: ws) (k + 1) =
              i + w.bytes.length + 1 + wordStart ws k := by
            rw [wordStart, List.take_succ_cons, wordsLen, wordStart]
            omega
          rw [hstart]
          exact ih hrest (Nat.lt_of_succ_lt_succ hk)

/-- A word and its separator lie within the words. -/
theorem wordStart_add_lt {ws : List Word} {k : Nat} (hk : k < ws.length) :
    wordStart ws k + ws[k].bytes.length < wordsLen ws := by
  induction ws generalizing k with
  | nil => exact absurd hk (Nat.not_lt_zero k)
  | cons w ws ih =>
      rw [wordsLen]
      cases k with
      | zero =>
          simp only [wordStart, List.take_zero, List.getElem_cons_zero, wordsLen]
          omega
      | succ k =>
          have hrest := ih (Nat.lt_of_succ_lt_succ hk)
          rw [wordStart, List.take_succ_cons, wordsLen, List.getElem_cons_succ]
          simp only [wordStart] at hrest
          omega

/-- A token that starts at a word reads as the word, once the tokenizer has seen a separator behind
    its start. -/
theorem tokenText_word {e p : Nat} {w : Word} (h : TokInv d e t) (hend : EndsBelow d e p)
    (hword : ∀ j, ∀ hj : j < w.bytes.length, d (p + j) = w.bytes[j])
    (hsep : isSep (d (p + w.bytes.length)) = true) (hfit : p + w.bytes.length < usbSerialBufSz) :
    tokenText t.data p = w.bytes := by
  obtain ⟨e', hpe, hee, hsep'⟩ := hend
  have hclean : ∀ j, ∀ hj : j < w.bytes.length, isSep (d (p + j)) = false := by
    intro j hj
    rw [hword j hj]
    exact w.noSep _ (List.getElem_mem hj)
  -- the first separator from `p` on is the one behind the word
  have hbehind : p + w.bytes.length ≤ e' := by
    by_contra hlt
    obtain ⟨j, rfl⟩ := Nat.exists_eq_add_of_le hpe
    rw [hclean j (by omega)] at hsep'
    cases hsep'
  have hread : tokenText t.data p = w.bytes.takeWhile (· ≠ 0) := by
    apply cstr_of_agree
    · intro j hj
      rw [h.data, if_neg fun hcut => Bool.false_ne_true ((hclean j hj).symm.trans hcut.2)]
      exact hword j hj
    · rw [h.data, if_pos ⟨by omega, hsep⟩]
    · omega
  have hzero : 0 ∉ w.bytes := fun hmem => absurd (w.noSep 0 hmem) (by decide)
  rw [hread, takeWhile_noNul hzero]

end Words

/-! ### The tokens of a line -/

/-- The tokenizer hands on these words: the first as the command, the others as arguments as far as
    there is room. -/
structure Presents (t : TokState) (c : Word) (args : List Word) : Prop where
  cmd : ∃ p, t.token.cmd = some p ∧ tokenText t.data p = c.bytes
  argc : t.argIdx = min args.length maxArgs
  args : ∀ k, ∀ hk : k < args.length, k < maxArgs →
    ∃ p, t.token.arg k = some p ∧ tokenText t.data p = args[k].bytes
  unused : ∀ k, t.argIdx ≤ k → t.token.arg k = none

section Line

variable {str : StringT} {c : Word} {args : List Word}

/-- The pointers that the tokenizer leaves. -/
theorem tokenize_words (hold : HoldsWords str.data 0 (c :: args))
    (hlen : str.len = wordsLen (c :: args)) :
    (tokenize str).token.cmd = some 0 ∧ (tokenize str).argIdx = min args.length maxArgs ∧
      (∀ k < args.length, k < maxArgs →
        (tokenize str).token.arg k = some (wordStart (c :: args) (k + 1))) ∧
      ∀ k, (tokenize str).argIdx ≤ k → (tokenize str).token.arg k = none := by
  obtain ⟨hword, hsep, hrest⟩ := hold
  rw [Nat.zero_add] at hsep hrest
  have hskip : ∀ j < c.bytes.length, isSep (str.data (0 + j)) = false := by
    intro j hj
    rw [hword j hj]
    exact c.noSep _ (List.getElem_mem hj)
  obtain ⟨hloop, hinv⟩ := tokLoop_skip (tokInv_init str) c.bytes.length (wordsLen args + 1) hskip
  rw [Nat.zero_add] at hloop hinv
  -- the separator behind the first word makes it the command
  have hstep : tokStep { data := str.data, tok := 0, token := ⟨none, fun _ => none⟩, argIdx := 0 }
      c.bytes.length =
      { data := Function.update str.data c.bytes.length 0
        tok := c.bytes.length + 1
        token := ⟨some 0, fun _ => none⟩
        argIdx := 0 } := by
    simp [tokStep, hsep]
  have hargs := tokLoop_words args hinv.step hrest (by rw [hstep]) (by simp [hstep])
    (by rw [hstep]; exact Nat.zero_le _)
  have htokens : tokenize str = tokLoop (wordsLen args) (c.bytes.length + 1)
      (tokStep { data := str.data, tok := 0, token := ⟨none, fun _ => none⟩, argIdx := 0 }
        c.bytes.length) := by
    rw [tokenize, hlen, wordsLen, hloop, tokLoop, if_pos (show 0 < maxArgs by decide)]
  rw [← htokens, hstep] at hargs
  have hargc : (tokenize str).argIdx = min args.length maxArgs := by
    rw [hargs.argIdx, Nat.zero_add]
  have hhas : HasSep str := ⟨c.bytes.length, by rw [hlen, wordsLen]; omega, hsep⟩
  refine ⟨(tokenize_cmd str).1 hhas, hargc, fun k hk hroom => ?_, fun k hk => ?_⟩
  · have harg := hargs.args k hk (by rw [Nat.zero_add]; exact hroom)
    have hstart : wordStart (c :: args) (k + 1) = c.bytes.length + 1 + wordStart args k := by
      rw [wordStart, List.take_succ_cons, wordsLen, wordStart]
      omega
    rw [hstart, ← harg, Nat.zero_add]
  · exact hargs.others k (.inr hk)

theorem presents_of_holdsWords (hold : HoldsWords str.data 0 (c :: args))
    (hlen : str.len = wordsLen (c :: args)) (hfit : str.len ≤ usbSerialBufSz) :
    Presents (tokenize str) c args := by
  obtain ⟨hcmd, hargc, hargs, hunused⟩ := tokenize_words hold hlen
  obtain ⟨e, -, hinv, -⟩ := tokenize_inv str
  have htext : ∀ k, ∀ hk : k < (c :: args).length,
      EndsBelow str.data e (wordStart (c :: args) k) →
      tokenText (tokenize str).data (wordStart (c :: args) k) = (c :: args)[k].bytes := by
    intro k hk hend
    obtain ⟨hword, hsep⟩ := hold.word hk
    rw [Nat.zero_add] at hword hsep
    have hlt := wordStart_add_lt hk
    exact tokenText_word hinv hend hword hsep (by omega)
  refine ⟨⟨0, hcmd, ?_⟩, hargc, fun k hk hroom => ⟨_, hargs k hk hroom, ?_⟩, hunused⟩
  · exact htext 0 (Nat.zero_lt_succ _) (hinv.cmd 0 hcmd).2
  · have hlt : k < (tokenize str).argIdx := by
      rw [hargc]
      exact Nat.lt_min.mpr ⟨hk, hroom⟩
    obtain ⟨p, hp, hend⟩ := hinv.args k hlt
    have hstart : p = wordStart (c :: args) (k + 1) :=
      Option.some.inj (hp.symm.trans (hargs k hk hroom))
    exact htext (k + 1) (Nat.succ_lt_succ hk) (hstart ▸ hend)

end Line

/-! ### Typing the line -/

/-- What is typed for a command: its words with single spaces between them. -/
def typedLine (c : Word) (args : List Word) : List UInt8 :=
  [charSpace].intercalate ((c :: args).map Word.bytes)

theorem typedLine_cons (c w : Word) (ws : List Word) :
    typedLine c (w :: ws) = c.bytes ++ charSpace :: typedLine w ws := by
  simp [typedLine, List.intercalate_cons_cons]

theorem length_typedLine (c : Word) (args : List Word) :
    (typedLine c args).length + 1 = wordsLen (c :: args) := by
  induction args generalizing c with
  | nil => simp [typedLine, wordsLen]
  | cons w ws ih =>
      rw [typedLine_cons, List.length_append, List.length_cons, Nat.add_assoc, wordsLen,
        ← ih w]

/-- A buffer with the line and a NUL behind it holds the words. -/
theorem holdsWords_typedLine {d : Nat → UInt8} {i : Nat} (c : Word) (args : List Word)
    (hline : ∀ j, ∀ hj : j < (typedLine c args).length, d (i + j) = (typedLine c args)[j])
    (hnul : d (i + (typedLine c args).length) = 0) : HoldsWords d i (c :: args) := by
  induction args generalizing c i with
  | nil =>
      have hone : typedLine c [] = c.bytes := by simp [typedLine]
      rw [hone] at hnul
      simp only [hone] at hline
      exact ⟨hline, by simp [isSep, hnul], trivial⟩
  | cons w ws ih =>
      have hlen : (typedLine c (w :: ws)).length =
          c.bytes.length + 1 + (typedLine w ws).length := by
        rw [typedLine_cons, List.length_append, List.length_cons]
        omega
      simp only [typedLine_cons] at hline
      have hat : ∀ j, ∀ hj : j < c.bytes.length, d (i + j) = c.bytes[j] := by
        intro j hj
        rw [hline j (by rw [List.length_append]; omega), List.getElem_append_left hj]
      have hspace : d (i + c.bytes.length) = charSpace := by
        rw [hline _ (by simp), List.getElem_append_right (Nat.le_refl _)]
        simp
      have hrest : ∀ j, ∀ hj : j < (typedLine w ws).length,
          d (i + c.bytes.length + 1 + j) = (typedLine w ws)[j] := by
        intro j hj
        have hidx : i + c.bytes.length + 1 + j = i + (c.bytes.length + (j + 1)) := by omega
        rw [hidx, hline _ (by simp; omega), List.getElem_append_right (Nat.le_add_right _ _)]
        simp
      refine ⟨hat, by simp [isSep, hspace], ih w hrest ?_⟩
      rw [← hnul, hlen]
      congr 1
      omega

theorem mem_typedLine {c : Word} {args : List Word} {b : UInt8} (h : b ∈ typedLine c args) :
    isEol b = false ∧ b ≠ charBs := by
  induction args generalizing c with
  | nil =>
      have hone : typedLine c [] = c.bytes := by simp [typedLine]
      exact c.noEdit b (hone ▸ h)
  | cons w ws ih =>
      rw [typedLine_cons, List.mem_append, List.mem_cons] at h
      obtain hword | rfl | hrest := h
      · exact c.noEdit b hword
      · decide
      · exact ih hrest

/-- Bytes that neither end nor edit the line are added to it, while there is room. -/
theorem rxLoop_line (o : PostInc) {s : UsbSerial} {text bs : List UInt8} (h : EditView s text)
    (hbs : ∀ b ∈ bs, isEol b = false ∧ b ≠ charBs)
    (hroom : text.length + bs.length < usbSerialBufSz - 1) :
    EditView (rxLoop o s bs).1 (text ++ bs) ∧ (rxLoop o s bs).1.rxP = s.rxP ∧
      posts (rxLoop o s bs).2 = [] := by
  induction bs generalizing s text with
  | nil => exact ⟨by rwa [List.append_nil], rfl, rfl⟩
  | cons b bs ih =>
      obtain ⟨heol, hback⟩ := hbs b List.mem_cons_self
      have hcode : codeEdit text b = text ++ [b] := by simp [codeEdit, hback]
      have hedit : EditView (s.editRx b) (text ++ [b]) := by
        have hlen : text.length < usbSerialBufSz - 1 := by omega
        rw [← hcode]
        exact h.edit hlen b
      have hnext : (s.editRx b).rxIdx ≠ usbSerialBufSz - 1 := by
        rw [List.length_cons] at hroom
        rw [hedit.idx, List.length_append, List.length_singleton]
        omega
      obtain ⟨hstate, hposts⟩ := bufferRx_edit (o := o) heol hnext
      have hroom' : (text ++ [b]).length + bs.length < usbSerialBufSz - 1 := by
        rw [List.length_cons] at hroom
        rw [List.length_append, List.length_singleton]
        omega
      obtain ⟨hview, hp, hrest⟩ :=
        ih hedit (fun b' hb' => hbs b' (List.mem_cons_of_mem b hb')) hroom'
      rw [rxLoop, hstate]
      refine ⟨?_, hp.trans editRx_rxP, ?_⟩
      · rwa [List.append_assoc, List.singleton_append] at hview
      · rw [posts, List.filterMap_append]
        exact List.append_eq_nil_iff.mpr ⟨hposts, hrest⟩

theorem rxLoop_append (o : PostInc) (s : UsbSerial) (bs bs' : List UInt8) :
    rxLoop o s (bs ++ bs') =
      ((rxLoop o (rxLoop o s bs).1 bs').1,
        (rxLoop o s bs).2 ++ (rxLoop o (rxLoop o s bs).1 bs').2) := by
  induction bs generalizing s with
  | nil => rfl
  | cons b bs ih =>
      rw [List.cons_append, rxLoop, ih, rxLoop]
      simp only [List.append_assoc]

/-- A line typed on an empty buffer and ended is posted, with a NUL behind it. -/
theorem rxLoop_ended (o : PostInc) {s : UsbSerial} (hidx : s.rxIdx = 0) {typed : List UInt8}
    (hline : ∀ b ∈ typed, isEol b = false ∧ b ≠ charBs)
    (hroom : typed.length < usbSerialBufSz - 1) :
    posts (rxLoop o s (typed ++ [charCr])).2 = [s.rxP] ∧
      ((rxLoop o s (typed ++ [charCr])).1.rxQ s.rxP).len = typed.length + 1 ∧
      (∀ j, ∀ hj : j < typed.length,
        ((rxLoop o s (typed ++ [charCr])).1.rxQ s.rxP).data j = typed[j]) ∧
      ((rxLoop o s (typed ++ [charCr])).1.rxQ s.rxP).data typed.length = 0 := by
  obtain ⟨hview, hp, hposts⟩ := rxLoop_line o (EditView.empty hidx) hline
    (by rwa [List.length_nil, Nat.zero_add])
  rw [List.nil_append] at hview
  have heol : isEol charCr = true := by decide
  rw [rxLoop_append, rxLoop, rxLoop, bufferRx_eol heol]
  generalize (rxLoop o s typed).1 = s₁ at hview hp
  have hmod : (typed.length + 1) % 256 = typed.length + 1 := by
    simp only [usbSerialBufSz] at hroom
    omega
  refine ⟨?_, ?_, fun j hj => ?_, ?_⟩
  · rw [posts, List.filterMap_append]
    simp only [List.append_nil]
    rw [← posts, ← posts, hposts, posts_bufferRxDispatch, hp, List.nil_append]
  · simp [bufferRxDispatch, ← hp, hview.idx, hmod]
  · simp only [bufferRxDispatch, ← hp, Function.update_self, hview.idx]
    rw [Function.update_of_ne (Nat.ne_of_lt hj)]
    exact hview.data j hj
  · simp only [bufferRxDispatch, ← hp, Function.update_self, hview.idx]

/-! ### The round trip -/

/-- With no empty slot the match loop ends. -/
theorem matchLoop_ne_nullName {tbl : CmdTable} (cmd : List UInt8) (n : Nat) {i j : Nat}
    (h : ∀ k < i + n, (tbl k).cmd ≠ none) : matchLoop tbl cmd n i ≠ .nullName j := by
  induction n generalizing i with
  | zero => nofun
  | succ n ih =>
      rw [matchLoop]
      split
      · rename_i hnone
        exact absurd hnone (h i (by omega))
      · split
        · nofun
        · exact ih fun k hk => h k (by omega)

/-- A parse of a line with a command ends with the first byte of the line cleared, and calls a
    callback with the tokens that were found. -/
theorem cmdpParseCmd_ok {tbl : CmdTable} {str : StringT} (hfull : ∀ i < maxCmds, (tbl i).cmd ≠ none)
    (hcmd : (tokenize str).token.cmd = some 0) :
    ∃ str' acts, cmdpParseCmd tbl str = .ok (str', acts) ∧ str'.data 0 = 0 ∧
      ∀ cb argc tok, CmdAct.call cb argc tok ∈ acts →
        argc = (tokenize str).argIdx ∧ tok = (tokenize str).token := by
  have hzero : releaseBuf (tokenize str).data 0 0 = 0 := Function.update_self _ _ _
  rw [cmdpParseCmd]
  simp only [hcmd]
  refine ⟨{ str with data := releaseBuf (tokenize str).data 0 }, ?_⟩
  cases hlook : matchLoop tbl (tokenText (tokenize str).data 0) maxCmds 0 with
  | nullName i => exact absurd hlook (matchLoop_ne_nullName _ _ (by simpa using hfull))
  | missing => exact ⟨_, rfl, hzero, by simp⟩
  | found i =>
      cases hcb : (tbl i).cb with
      | none => exact ⟨[], by simp [hcb], hzero, by simp⟩
      | some cb' =>
          refine ⟨[.call cb' (tokenize str).argIdx (tokenize str).token], by simp [hcb], hzero, ?_⟩
          intro cb argc tok h
          obtain ⟨-, hargc, htok⟩ := CmdAct.call.inj (List.mem_singleton.mp h)
          exact ⟨hargc, htok⟩

/-- For every command word and argument words that fit the line, and whatever the buffers held: what
    is typed is posted as one line, the tokenizer hands on the words it was made of, and the parse
    ends with the line released. -/
theorem typedCommand_tokens (o : PostInc) {s : UsbSerial} (hidx : s.rxIdx = 0) (c : Word)
    (args : List Word) (hlen : (typedLine c args).length ≤ 28) {tbl : CmdTable}
    (hfull : ∀ i < maxCmds, (tbl i).cmd ≠ none) :
    let r := rxLoop o s (typedLine c args ++ [charCr])
    let str := r.1.rxQ s.rxP
    posts r.2 = [s.rxP] ∧ Presents (tokenize str) c args ∧
      ∃ str' acts, cmdpParseCmd tbl str = .ok (str', acts) ∧ str'.data 0 = 0 ∧
        ∀ cb argc tok, CmdAct.call cb argc tok ∈ acts →
          argc = (tokenize str).argIdx ∧ tok = (tokenize str).token := by
  intro r str
  have hroom : (typedLine c args).length < usbSerialBufSz - 1 := Nat.lt_succ_of_le hlen
  obtain ⟨hposts, hstrLen, hdata, hnul⟩ :=
    rxLoop_ended o hidx (fun b hb => mem_typedLine hb) hroom
  have hold : HoldsWords str.data 0 (c :: args) :=
    holdsWords_typedLine c args (fun j hj => by rw [Nat.zero_add]; exact hdata j hj)
      (by rw [Nat.zero_add]; exact hnul)
  have hlen' : str.len = wordsLen (c :: args) := hstrLen.trans (length_typedLine c args)
  have hfit : str.len ≤ usbSerialBufSz := by
    rw [hlen', ← length_typedLine]
    simp only [usbSerialBufSz]
    omega
  exact ⟨hposts, presents_of_holdsWords hold hlen' hfit,
    cmdpParseCmd_ok hfull (tokenize_words hold hlen').1⟩

/-- The words of `rx 1`. -/
def wordRx : Word :=
  { bytes := [114, 120]
    nonempty := List.cons_ne_nil _ _
    noSep := List.forall_mem_cons.mpr ⟨rfl, List.forall_mem_singleton.mpr rfl⟩
    noEdit := List.forall_mem_cons.mpr
      ⟨⟨rfl, by decide⟩, List.forall_mem_singleton.mpr ⟨rfl, by decide⟩⟩ }

def wordOne : Word :=
  { bytes := [49]
    nonempty := List.cons_ne_nil _ _
    noSep := List.forall_mem_singleton.mpr rfl
    noEdit := List.forall_mem_singleton.mpr ⟨rfl, by decide⟩ }

/-- A table with one command in all of its slots, as `cmdp_register_cmd` leaves it. -/
def rxTable : CmdTable := fun _ => ⟨some ⟨[114, 120], by decide⟩, some 1⟩

/-- The typed line `rx 1` at the first use of the object. -/
theorem typedRx_tokens :
    let r := rxLoop .unchanged .zero (typedLine wordRx [wordOne] ++ [charCr])
    let str := r.1.rxQ 0
    posts r.2 = [0] ∧ Presents (tokenize str) wordRx [wordOne] ∧
      ∃ str' acts, cmdpParseCmd rxTable str = .ok (str', acts) ∧ str'.data 0 = 0 ∧
        ∀ cb argc tok, CmdAct.call cb argc tok ∈ acts →
          argc = (tokenize str).argIdx ∧ tok = (tokenize str).token := by
  have hfull : ∀ i < maxCmds, (rxTable i).cmd ≠ none := fun _ _ => nofun
  exact typedCommand_tokens .unchanged rfl wordRx [wordOne] (by decide) hfull

end RfPirate
