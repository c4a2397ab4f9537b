/-
Module: RfPirate.Proofs.Tokenizer
Layer: Proofs
Purpose: What the tokenizer of `cmd_parser.cpp` leaves behind: the invariant of its loop, when the
  tokens it hands on are strings inside the line, and what the first of them reads.
Main exports: TokInv, tokenize_inv, SafeTokens, safeTokens_iff, firstToken, tokenize_cmd,
  tokenText_tokenize
-/
import RfPirate.Core.CmdParser
import Mathlib.Data.Nat.Find

namespace RfPirate

open Lib Lib.CString

/-! ### The loop -/

/-- A token that starts at `p` ends at a separator below index `i` of the line `d`. -/
def EndsBelow (d : Nat → UInt8) (i p : Nat) : Prop := ∃ e, p ≤ e ∧ e < i ∧ isSep (d e) = true

theorem EndsBelow.succ {d : Nat → UInt8} {i p : Nat} (h : EndsBelow d i p) :
    EndsBelow d (i + 1) p := by
  obtain ⟨e, hpe, hei, hsep⟩ := h
  exact ⟨e, hpe, Nat.lt_succ_of_lt hei, hsep⟩

/-- The tokenizer has worked through the first `i` bytes of the line `d`. -/
structure TokInv (d : Nat → UInt8) (i : Nat) (t : TokState) : Prop where
  data : ∀ j, t.data j = if j < i ∧ isSep (d j) = true then 0 else d j
  tok : t.tok ≤ i
  noCmd : t.token.cmd = none → t.tok = 0 ∧ t.argIdx = 0 ∧ ¬ EndsBelow d i 0
  cmd : ∀ p, t.token.cmd = some p → p = 0 ∧ EndsBelow d i 0
  args : ∀ k < t.argIdx, ∃ p, t.token.arg k = some p ∧ EndsBelow d i p

section Loop

variable {d : Nat → UInt8} {i : Nat} {t : TokState}

theorem TokInv.data_at (h : TokInv d i t) : t.data i = d i := by
  rw [h.data i, if_neg]
  exact fun hlt => absurd hlt.1 (Nat.lt_irrefl i)

theorem TokInv.data_step (h : TokInv d i t) (hsep : isSep (d i) = true) (j : Nat) :
    Function.update t.data i 0 j = if j < i + 1 ∧ isSep (d j) = true then 0 else d j := by
  by_cases hji : j = i
  · subst hji
    rw [Function.update_self, if_pos ⟨Nat.lt_succ_self j, hsep⟩]
  · rw [Function.update_of_ne hji, h.data j]
    have hbound : j < i ↔ j < i + 1 := by omega
    simp only [hbound]

/-- One round of the loop. -/
theorem TokInv.step (h : TokInv d i t) : TokInv d (i + 1) (tokStep t i) := by
  cases hsep : isSep (d i) with
  | false =>
      have hstep : tokStep t i = t := by simp [tokStep, h.data_at, hsep]
      rw [hstep]
      have hends : ∀ p, EndsBelow d (i + 1) p → EndsBelow d i p := by
        rintro p ⟨e, hpe, hei, he⟩
        rcases Nat.lt_or_eq_of_le (Nat.le_of_lt_succ hei) with hlt | heq
        · exact ⟨e, hpe, hlt, he⟩
        · subst heq
          exact absurd (he.symm.trans hsep) (by decide)
      constructor
      · intro j
        rw [h.data j]
        by_cases hji : j = i
        · subst hji
          simp [hsep]
        · have hbound : j < i ↔ j < i + 1 := by omega
          simp only [hbound]
      · exact Nat.le_succ_of_le h.tok
      · intro hnone
        obtain ⟨htok, hargs, hopen⟩ := h.noCmd hnone
        exact ⟨htok, hargs, fun hend => hopen (hends 0 hend)⟩
      · intro p hp
        exact ⟨(h.cmd p hp).1, (h.cmd p hp).2.succ⟩
      · intro k hk
        obtain ⟨p, harg, hend⟩ := h.args k hk
        exact ⟨p, harg, hend.succ⟩
  | true =>
      have hclosed : ∀ p ≤ i, EndsBelow d (i + 1) p :=
        fun p hp => ⟨i, hp, Nat.lt_succ_self i, hsep⟩
      cases hcmd : t.token.cmd with
      | none =>
          obtain ⟨htok, hargs, -⟩ := h.noCmd hcmd
          have hstep : tokStep t i =
              { t with
                data := Function.update t.data i 0
                tok := i + 1
                token := { t.token with cmd := some t.tok } } := by
            simp [tokStep, h.data_at, hsep, hcmd]
          rw [hstep]
          constructor
          · exact h.data_step hsep
          · exact Nat.le_refl (i + 1)
          · intro hnone
            exact absurd hnone (by simp)
          · intro p hp
            have hp₀ : p = 0 := (Option.some.inj hp).symm.trans htok
            exact ⟨hp₀, hclosed 0 (Nat.zero_le i)⟩
          · intro k hk
            exact absurd (hargs ▸ hk) (Nat.not_lt_zero k)
      | some c =>
          have hstep : tokStep t i =
              { t with
                data := Function.update t.data i 0
                tok := i + 1
                token := { t.token with arg := Function.update t.token.arg t.argIdx (some t.tok) }
                argIdx := t.argIdx + 1 } := by
            simp [tokStep, h.data_at, hsep, hcmd]
          rw [hstep]
          constructor
          · exact h.data_step hsep
          · exact Nat.le_refl (i + 1)
          · intro hnone
            exact absurd (hcmd.symm.trans hnone) (by simp)
          · intro p hp
            exact ⟨(h.cmd p hp).1, hclosed 0 (Nat.zero_le i)⟩
          · intro k hk
            -- the argument just found, or one from before
            by_cases hlast : k = t.argIdx
            · subst hlast
              exact ⟨t.tok, Function.update_self _ _ _, hclosed t.tok h.tok⟩
            · have hlt : k < t.argIdx := Nat.lt_of_le_of_ne (Nat.le_of_lt_succ hk) hlast
              obtain ⟨p, harg, hend⟩ := h.args k hlt
              exact ⟨p, (Function.update_of_ne hlast _ _).trans harg, hend.succ⟩

/-- The loop stops at the end of the line, or behind the last argument it has room for. -/
theorem TokInv.loop (n : Nat) : ∀ {i : Nat} {t : TokState}, TokInv d i t →
    ∃ e, i ≤ e ∧ e ≤ i + n ∧ TokInv d e (tokLoop n i t) ∧
      (e = i + n ∨ maxArgs ≤ (tokLoop n i t).argIdx) := by
  induction n with
  | zero =>
      intro i t h
      exact ⟨i, Nat.le_refl i, Nat.le_refl i, h, Or.inl rfl⟩
  | succ n ih =>
      intro i t h
      by_cases hroom : t.argIdx < maxArgs
      · obtain ⟨e, hie, hen, hinv, hend⟩ := ih h.step
        simp only [tokLoop, if_pos hroom]
        refine ⟨e, by omega, by omega, hinv, ?_⟩
        rcases hend with hline | hargs
        · exact Or.inl (by omega)
        · exact Or.inr hargs
      · simp only [tokLoop, if_neg hroom]
        exact ⟨i, Nat.le_refl i, by omega, h, Or.inr (by omega)⟩

theorem tokInv_init (str : StringT) : TokInv str.data 0
    { data := str.data, tok := 0, token := ⟨none, fun _ => none⟩, argIdx := 0 } := by
  constructor
  · intro j
    simp
  · exact Nat.le_refl 0
  · intro _
    exact ⟨rfl, rfl, fun hend => absurd hend.choose_spec.2.1 (Nat.not_lt_zero _)⟩
  · intro p hp
    exact absurd hp (by simp)
  · intro k hk
    exact absurd hk (Nat.not_lt_zero k)

/-- The tokenizer leaves its invariant behind; it looks at the whole line unless it has found a
    command first. -/
theorem tokenize_inv (str : StringT) :
    ∃ e ≤ str.len, TokInv str.data e (tokenize str) ∧
      (e = str.len ∨ (tokenize str).token.cmd ≠ none) := by
  obtain ⟨e, -, hen, hinv, hend⟩ := (tokInv_init str).loop str.len
  refine ⟨e, by omega, hinv, ?_⟩
  rcases hend with hline | hargs
  · exact Or.inl (by omega)
  · right
    intro hnone
    have hzero : (tokenize str).argIdx = 0 := (hinv.noCmd hnone).2.1
    have htwo : maxArgs ≤ (tokenize str).argIdx := hargs
    rw [hzero] at htwo
    exact absurd htwo (by decide)

end Loop

/-! ### The tokens -/

/-- The pointer `p` points into the line buffer, and the string there ends in the buffer. -/
def InsideLine (data : Nat → UInt8) (p : Nat) : Prop :=
  p < usbSerialBufSz ∧ ∃ e, p ≤ e ∧ e < usbSerialBufSz ∧ data e = 0

/-- What the match loop relies on: the command and the counted arguments are strings that lie in the
    line buffer. -/
def SafeTokens (t : TokState) : Prop :=
  (∃ p, t.token.cmd = some p ∧ InsideLine t.data p) ∧
    ∀ k < t.argIdx, ∃ p, t.token.arg k = some p ∧ InsideLine t.data p

theorem SafeTokens.isSome_cmd {t : TokState} (h : SafeTokens t) : t.token.cmd.isSome = true := by
  obtain ⟨⟨p, hp, -⟩, -⟩ := h
  rw [hp]
  rfl

/-- The line has a space or a NUL in its recorded length. -/
def HasSep (str : StringT) : Prop := ∃ i < str.len, isSep (str.data i) = true

instance (str : StringT) : Decidable (HasSep str) :=
  inferInstanceAs (Decidable (∃ i < str.len, isSep (str.data i) = true))

/-- A command is found just when there is a separator, and then it starts the line. -/
theorem tokenize_cmd (str : StringT) :
    (HasSep str → (tokenize str).token.cmd = some 0) ∧
      (¬ HasSep str → (tokenize str).token.cmd = none) := by
  obtain ⟨e, he, hinv, hend⟩ := tokenize_inv str
  cases hcmd : (tokenize str).token.cmd with
  | none =>
      refine ⟨fun hsep => ?_, fun _ => rfl⟩
      obtain ⟨i, hi, hi'⟩ := hsep
      have hline : e = str.len := hend.resolve_right (fun hne => hne hcmd)
      exact absurd ⟨i, Nat.zero_le i, hline ▸ hi, hi'⟩ (hinv.noCmd hcmd).2.2
  | some p =>
      obtain ⟨rfl, i, -, hi, hsep⟩ := hinv.cmd p hcmd
      exact ⟨fun _ => rfl, fun hno => absurd ⟨i, Nat.lt_of_lt_of_le hi he, hsep⟩ hno⟩

/-- The tokens of a line that fits its buffer are safe just when it has a separator. -/
theorem safeTokens_iff {str : StringT} (hlen : str.len ≤ usbSerialBufSz) :
    SafeTokens (tokenize str) ↔ HasSep str := by
  constructor
  · rintro ⟨⟨p, hp, -⟩, -⟩
    by_contra hno
    exact absurd (hp.symm.trans ((tokenize_cmd str).2 hno)) (by simp)
  · intro hsep
    obtain ⟨e, he, hinv, -⟩ := tokenize_inv str
    have hinside : ∀ p, EndsBelow str.data e p → InsideLine (tokenize str).data p := by
      rintro p ⟨j, hpj, hje, hj⟩
      have hnul : (tokenize str).data j = 0 := by rw [hinv.data j, if_pos ⟨hje, hj⟩]
      exact ⟨by omega, j, hpj, by omega, hnul⟩
    have hcmd := (tokenize_cmd str).1 hsep
    refine ⟨⟨0, hcmd, hinside 0 (hinv.cmd 0 hcmd).2⟩, fun k hk => ?_⟩
    obtain ⟨p, harg, hend⟩ := hinv.args k hk
    exact ⟨p, harg, hinside p hend⟩

/-- The tokenizer only turns separators into NUL. -/
theorem tokenize_data (str : StringT) (j : Nat) :
    (tokenize str).data j = str.data j ∨
      isSep (str.data j) = true ∧ (tokenize str).data j = 0 := by
  obtain ⟨e, -, hinv, -⟩ := tokenize_inv str
  rw [hinv.data j]
  by_cases hsep : j < e ∧ isSep (str.data j) = true
  · exact Or.inr ⟨hsep.2, if_pos hsep⟩
  · exact Or.inl (if_neg hsep)

/-- The first token of a line: its bytes before the first space or NUL. -/
def firstToken (str : StringT) : List UInt8 :=
  ((List.range str.len).map str.data).takeWhile fun b => !isSep b

/-- The first token is what stands before the first separator. -/
theorem firstToken_eq {str : StringT} (hsep : HasSep str) :
    ∃ f < str.len, isSep (str.data f) = true ∧ (∀ i < f, isSep (str.data i) = false) ∧
      firstToken str = (List.range f).map str.data := by
  obtain ⟨hlt, hf⟩ := Nat.find_spec hsep
  have hmin : ∀ i < Nat.find hsep, isSep (str.data i) = false := by
    intro i hi
    have hnot := Nat.find_min hsep hi
    simpa using fun h => hnot ⟨Nat.lt_trans hi hlt, h⟩
  generalize Nat.find hsep = f at hlt hf hmin
  refine ⟨f, hlt, hf, hmin, ?_⟩
  obtain ⟨n, hn⟩ : ∃ n, str.len = f + (n + 1) := ⟨str.len - f - 1, by omega⟩
  rw [firstToken, hn, List.range_add, List.map_append, List.takeWhile_append_of_pos]
  · simp [List.range_succ_eq_map, hf]
  · intro b hb
    obtain ⟨i, hi, rfl⟩ := List.mem_map.mp hb
    simp [hmin i (List.mem_range.mp hi)]

theorem zero_notMem_firstToken (str : StringT) : 0 ∉ firstToken str := by
  intro h
  have hnot := List.mem_takeWhile_imp h
  exact absurd hnot (by decide)

/-- The token `cmdp_parse_cmd` looks up is the first token of the line. -/
theorem tokenText_tokenize {str : StringT} (hlen : str.len ≤ usbSerialBufSz) (hsep : HasSep str) :
    tokenText (tokenize str).data 0 = firstToken str := by
  obtain ⟨f, hf, hfsep, hbefore, htoken⟩ := firstToken_eq hsep
  obtain ⟨e, -, hinv, -⟩ := tokenize_inv str
  obtain ⟨-, i, -, hie, hi⟩ := hinv.cmd 0 ((tokenize_cmd str).1 hsep)
  have hfe : f < e := by
    rcases Nat.lt_or_ge i f with hlt | hge
    · exact absurd ((hbefore i hlt).symm.trans hi) (by decide)
    · exact Nat.lt_of_le_of_lt hge hie
  have hread : tokenText (tokenize str).data 0 = (firstToken str).takeWhile (· ≠ 0) := by
    apply cstr_of_agree
    · intro j hj
      have hjf : j < f := by simpa [htoken] using hj
      have hsame : (tokenize str).data j = str.data j := by
        rw [hinv.data j, if_neg (by simp [hbefore j hjf])]
      simp [htoken, hsame]
    · have hnul : (tokenize str).data f = 0 := by rw [hinv.data f, if_pos ⟨hfe, hfsep⟩]
      simpa [htoken] using hnul
    · have hflen : (firstToken str).length = f := by simp [htoken]
      omega
  rw [hread, takeWhile_noNul (zero_notMem_firstToken str)]

end RfPirate
