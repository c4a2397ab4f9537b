/-
Module: RfPirate.Proofs.CmdTable
Layer: Proofs
Purpose: Registration and lookup of commands. Registration fills every free slot at once and always
  reports failure. Lookup compares over the length of the table's name, so it finds the first slot
  whose name is a prefix of the token, and it reads the name of an empty slot when it gets to one.
Main exports: RegisterLaw, register_law_iff, Layout, Line, DispatchLaw, DispatchOk, dispatch_law_iff
-/
import RfPirate.Proofs.Tokenizer
import Mathlib.Data.List.Perm.Basic

namespace RfPirate

open Lib Lib.CString

/-! ### Registration -/

/-- Every free slot gets the command, and the loop runs to its end. -/
theorem registerLoop_spec (cmd : Option CStr) (cb : Option CmdCb) (n : Nat) :
    ∀ (i : Nat) (tbl : CmdTable),
      (registerLoop cmd cb n i tbl).2 = i + n ∧
      ∀ j, (registerLoop cmd cb n i tbl).1 j =
        if i ≤ j ∧ j < i + n ∧ (tbl j).cmd = none then ⟨cmd, cb⟩ else tbl j := by
  induction n with
  | zero =>
      intro i tbl
      refine ⟨rfl, fun j => ?_⟩
      rw [if_neg (by omega)]
      rfl
  | succ n ih =>
      intro i tbl
      obtain ⟨hend, hslots⟩ := ih (i + 1)
        (if (tbl i).cmd = none then Function.update tbl i ⟨cmd, cb⟩ else tbl)
      refine ⟨by rw [registerLoop, hend]; omega, fun j => ?_⟩
      rw [registerLoop, hslots]
      by_cases hji : j = i
      · subst hji
        rw [if_neg (by omega)]
        by_cases hfree : (tbl j).cmd = none
        · rw [if_pos hfree, Function.update_self, if_pos ⟨by omega, by omega, hfree⟩]
        · rw [if_neg hfree, if_neg (by simp [hfree])]
      · have hother : (if (tbl i).cmd = none then Function.update tbl i ⟨cmd, cb⟩ else tbl) j =
            tbl j := by
          split
          · exact Function.update_of_ne hji _ _
          · rfl
        rw [hother]
        congr 1
        simp only [eq_iff_iff]
        constructor
        · rintro ⟨hle, hlt, hfree⟩
          exact ⟨by omega, by omega, hfree⟩
        · rintro ⟨hle, hlt, hfree⟩
          exact ⟨by omega, by omega, hfree⟩

/-- What `cmdp_register_cmd` does: every free slot gets the command, and the result is 1. -/
theorem cmdpRegisterCmd_spec (tbl : CmdTable) (cmd : Option CStr) (cb : Option CmdCb) :
    (cmdpRegisterCmd tbl cmd cb).2 = 1 ∧
    ∀ j < maxCmds, (cmdpRegisterCmd tbl cmd cb).1 j =
      if (tbl j).cmd = none then ⟨cmd, cb⟩ else tbl j := by
  obtain ⟨hend, hslots⟩ := registerLoop_spec cmd cb maxCmds 0 tbl
  constructor
  · simp [cmdpRegisterCmd, hend]
  · intro j hj
    have hslot := hslots j
    simp only [Nat.zero_le, Nat.zero_add, hj, true_and] at hslot
    exact hslot

/-- A sequence of registrations. -/
def registerAll (tbl : CmdTable) (regs : List (CStr × CmdCb)) : CmdTable :=
  regs.foldl (fun t reg => (cmdpRegisterCmd t (some reg.1) (some reg.2)).1) tbl

/-- The pairs of name and callback in the table. -/
def entries (tbl : CmdTable) : List (CStr × CmdCb) :=
  (List.range maxCmds).filterMap fun i =>
    match (tbl i).cmd, (tbl i).cb with
    | some name, some cb => some (name, cb)
    | _, _ => none

/-- The table as a bounded map: while there is room a call stores one new entry and reports success,
    later calls change nothing and report failure, and in the end the table holds the first
    `MAX_CMDS` pairs. -/
def RegisterLaw (mem : CmdTable) (regs : List (CStr × CmdCb)) : Prop :=
  (∀ pre name cb post, regs = pre ++ (name, cb) :: post →
    let tbl := registerAll (cmdpInit mem) pre
    let r := cmdpRegisterCmd tbl (some name) (some cb)
    if pre.length < maxCmds then
      r.2 = 0 ∧ ∃ i < maxCmds, (tbl i).cmd = none ∧
        ∀ j < maxCmds, r.1 j = if j = i then ⟨some name, some cb⟩ else tbl j
    else r.2 = 1 ∧ ∀ j < maxCmds, r.1 j = tbl j) ∧
  (entries (registerAll (cmdpInit mem) regs)).Perm (regs.take maxCmds)

/-- The law holds only as long as nothing is registered. -/
theorem register_law_iff (mem : CmdTable) (regs : List (CStr × CmdCb)) :
    RegisterLaw mem regs ↔ regs = [] := by
  constructor
  · rintro ⟨hcalls, -⟩
    cases regs with
    | nil => rfl
    | cons reg regs =>
        have hfirst := hcalls [] reg.1 reg.2 regs rfl
        have hresult := (cmdpRegisterCmd_spec (cmdpInit mem) (some reg.1) (some reg.2)).1
        have hzero : (1 : UInt8) = 0 := hresult.symm.trans hfirst.1
        exact absurd hzero (by decide)
  · rintro rfl
    refine ⟨?_, ?_⟩
    · intro pre name cb post hregs
      simp at hregs
    · have hempty : entries (registerAll (cmdpInit mem) []) = [] := by
        simp only [entries, registerAll, List.foldl_nil, cmdpInit]
        apply List.filterMap_eq_nil_iff.mpr
        intro i hi
        rw [if_pos (List.mem_range.mp hi)]
      rw [hempty, List.take_nil]

/-- Registering one command reports failure and fills the whole table with it. -/
theorem register_law_fails : ¬ RegisterLaw (fun _ => ⟨none, none⟩) [(⟨[97], by decide⟩, 1)] := by
  intro h
  have hfirst := (h.1 [] ⟨[97], by decide⟩ 1 [] rfl).1
  revert hfirst
  decide

/-! ### Tables and lines -/

/-- A registered command: its name and its callback. -/
abbrev Command := CStr × CmdCb

/-- The slot of a registered command. -/
def slotOf (e : Command) : CmdEntryT := ⟨some e.1, some e.2⟩

/-- Commands put, in order, into the slots marked as occupied. -/
def fill : List Bool → List Command → List CmdEntryT
  | true :: occ, e :: es => slotOf e :: fill occ es
  | _ :: occ, es => ⟨none, none⟩ :: fill occ es
  | [], _ => []

/-- Which slots of a table hold its `n` commands. -/
structure Layout (n : Nat) where
  occ : List Bool
  slots : occ.length = maxCmds
  count : occ.count true = n

namespace Layout

variable {n : Nat} (layout : Layout n)

/-- The table with the commands `es`, in order, in its occupied slots. -/
def table (es : List Command) : CmdTable := fun i => (fill layout.occ es).getD i ⟨none, none⟩

/-- The number of slots in front of the first empty one. -/
def front : Nat := (layout.occ.takeWhile id).length

theorem front_le : layout.front ≤ n := by
  have hcount := (List.takeWhile_sublist (l := layout.occ) id).count_le true
  have hall : (layout.occ.takeWhile id).count true = (layout.occ.takeWhile id).length := by
    apply List.count_eq_length.mpr
    intro b hb
    exact (List.mem_takeWhile_imp hb).symm
  have hn := layout.count
  unfold front
  omega

include layout in
theorem le_maxCmds : n ≤ maxCmds := by
  have hle := List.count_le_length (a := true) (l := layout.occ)
  have hn := layout.count
  have hs := layout.slots
  omega

end Layout

theorem fill_front : ∀ {occ : List Bool} {es : List Command} {i : Nat},
    i < (occ.takeWhile id).length → (h : i < es.length) → (fill occ es)[i]? = some (slotOf es[i])
  | [], _, i, hi, _ => absurd hi (Nat.not_lt_zero i)
  | false :: _, _, i, hi, _ => absurd hi (Nat.not_lt_zero i)
  | true :: occ, e :: es, 0, _, _ => rfl
  | true :: occ, e :: es, i + 1, hi, h => by
      have hi' : i < (occ.takeWhile id).length := by simpa using hi
      have h' : i < es.length := by simpa using h
      simpa [fill] using fill_front hi' h'

theorem fill_gap : ∀ {occ : List Bool} {es : List Command},
    (occ.takeWhile id).length < occ.length →
      (fill occ es)[(occ.takeWhile id).length]? = some ⟨none, none⟩
  | [], _, h => absurd h (Nat.lt_irrefl 0)
  | false :: _, _, _ => rfl
  | true :: occ, [], h => by
      have h' : (occ.takeWhile id).length < occ.length := by simpa using h
      simpa [fill] using fill_gap h'
  | true :: occ, e :: es, h => by
      have h' : (occ.takeWhile id).length < occ.length := by simpa using h
      simpa [fill] using fill_gap h'

/-- A well-formed line: it fits its buffer and its recorded length ends with the terminator. -/
structure Line where
  str : StringT
  pos : 1 ≤ str.len
  fits : str.len ≤ usbSerialBufSz
  nul : str.data (str.len - 1) = 0

theorem Line.hasSep (line : Line) : HasSep line.str :=
  ⟨line.str.len - 1, by have := line.pos; omega, by rw [line.nul]; rfl⟩

/-! ### Lookup -/

/-- The name of the entry is a prefix of the token, so the entry is selected when it is compared. -/
def Selected (token : List UInt8) (e : Command) : Prop := e.1.bytes <+: token

instance (token : List UInt8) (e : Command) : Decidable (Selected token e) :=
  inferInstanceAs (Decidable (e.1.bytes <+: token))

/-- Over slots that hold `es` the match loop stops at the first selected entry, or goes on behind
    them. -/
theorem matchLoop_spec (tbl : CmdTable) (token : List UInt8) : ∀ (es : List Command) (n s : Nat),
    (∀ i (h : i < es.length), tbl (s + i) = slotOf es[i]) → es.length ≤ n →
      (∃ i, ∃ h : i < es.length, Selected token es[i] ∧ (∀ j (hj : j < i), ¬ Selected token es[j]) ∧
        matchLoop tbl token n s = .found (s + i)) ∨
      ((∀ e ∈ es, ¬ Selected token e) ∧
        matchLoop tbl token n s = matchLoop tbl token (n - es.length) (s + es.length))
  | [], n, s, _, _ => Or.inr ⟨fun e he => absurd he (List.not_mem_nil), rfl⟩
  | e :: es, 0, _, _, hn => absurd hn (by simp)
  | e :: es, n + 1, s, htbl, hn => by
      have hhead : (tbl s).cmd = some e.1 := congrArg CmdEntryT.cmd (htbl 0 (by simp))
      by_cases hsel : Selected token e
      · left
        refine ⟨0, by simp, hsel, fun j hj => absurd hj (Nat.not_lt_zero j), ?_⟩
        simp [matchLoop, hhead, (strncmp_length_eq_zero_iff e.1.noNul).mpr hsel]
      · have hnext : matchLoop tbl token (n + 1) s = matchLoop tbl token n (s + 1) := by
          simp [matchLoop, hhead, mt (strncmp_length_eq_zero_iff e.1.noNul).mp hsel]
        have htail : ∀ i (h : i < es.length), tbl (s + 1 + i) = slotOf es[i] := by
          intro i h
          have hi := htbl (i + 1) (by simpa using h)
          rwa [show s + (i + 1) = s + 1 + i by omega] at hi
        rcases matchLoop_spec tbl token es n (s + 1) htail (by simpa using hn) with
          ⟨i, h, hi, hbefore, hfound⟩ | ⟨hnone, hon⟩
        · left
          refine ⟨i + 1, by simpa using h, hi, ?_, ?_⟩
          · intro j hj
            cases j with
            | zero => exact hsel
            | succ j => exact hbefore j (by omega)
          · rw [hnext, hfound]
            congr 1
            omega
        · right
          refine ⟨?_, ?_⟩
          · intro e' he'
            rcases List.mem_cons.mp he' with rfl | hmem
            · exact hsel
            · exact hnone e' hmem
          · rw [hnext, hon, List.length_cons]
            congr 1 <;> omega

theorem parsedStr_line (line : Line) :
    parsedStr line.str = { line.str with data := releaseBuf (tokenize line.str).data 0 } := by
  simp [parsedStr, (tokenize_cmd line.str).1 line.hasSep]

/-- The call a parse makes for an entry. -/
def callOf (line : Line) (e : Command) : CmdAct :=
  .call e.2 (tokenize line.str).argIdx (tokenize line.str).token

/-- A parse selects the first entry whose name is a prefix of the token, among the slots in front
    of the first empty one. When there is none it goes on to that empty slot. -/
theorem parse_table {n : Nat} (layout : Layout n) (line : Line) {es : List Command}
    (hes : es.length = n) :
    (∃ i, ∃ h : i < es.length, i < layout.front ∧ Selected (firstToken line.str) es[i] ∧
      (∀ j (hj : j < i), ¬ Selected (firstToken line.str) es[j]) ∧
      cmdpParseCmd (layout.table es) line.str = .ok (parsedStr line.str, [callOf line es[i]])) ∨
    ((∀ e ∈ es.take layout.front, ¬ Selected (firstToken line.str) e) ∧
      cmdpParseCmd (layout.table es) line.str =
        if layout.front = maxCmds then
          .ok (parsedStr line.str, [.print (badCmd (firstToken line.str))])
        else .error (.nullName layout.front)) := by
  have hfront : layout.front ≤ es.length := hes ▸ layout.front_le
  have hfit : layout.front ≤ maxCmds := Nat.le_trans layout.front_le layout.le_maxCmds
  have hslot : ∀ i (h : i < es.length), i < layout.front → layout.table es i = slotOf es[i] := by
    intro i h hi
    simp [Layout.table, List.getD_eq_getElem?_getD, fill_front hi h]
  have htake : (es.take layout.front).length = layout.front := by
    simp [hfront]
  have hcmd := (tokenize_cmd line.str).1 line.hasSep
  have htext := tokenText_tokenize line.fits line.hasSep
  rcases matchLoop_spec (layout.table es) (firstToken line.str) (es.take layout.front) maxCmds 0
      (fun i h => by
        have hi : i < layout.front := by omega
        simpa using hslot i (by omega) hi)
      (by omega) with ⟨i, h, hsel, hbefore, hfound⟩ | ⟨hnone, hon⟩
  · left
    have hi : i < layout.front := by omega
    refine ⟨i, by omega, hi, by simpa using hsel, ?_, ?_⟩
    · intro j hj
      simpa using hbefore j hj
    · simp [cmdpParseCmd, hcmd, htext, hfound, hslot i (by omega) hi, slotOf, parsedStr_line,
        callOf]
  · right
    refine ⟨hnone, ?_⟩
    rw [htake, Nat.zero_add] at hon
    by_cases hfull : layout.front = maxCmds
    · rw [if_pos hfull]
      rw [hfull, Nat.sub_self] at hon
      simp [cmdpParseCmd, hcmd, htext, hon, matchLoop, parsedStr_line]
    · rw [if_neg hfull]
      obtain ⟨m, hm⟩ : ∃ m, maxCmds - layout.front = m + 1 := ⟨maxCmds - layout.front - 1, by omega⟩
      have hgap : layout.table es layout.front = ⟨none, none⟩ := by
        have hlt : (layout.occ.takeWhile id).length < layout.occ.length := by
          have hs := layout.slots
          unfold Layout.front at hfull hfit
          omega
        simp [Layout.table, Layout.front, List.getD_eq_getElem?_getD, @fill_gap _ es hlt]
      rw [hm] at hon
      simp [cmdpParseCmd, hcmd, htext, hon, matchLoop, hgap]

/-! ### Dispatch -/

section Dispatch

variable {es : List Command} (layout : Layout es.length) (line : Line)

/-- The claim of a command dispatch: in whatever order the commands sit in the table, the parse
    compares no empty slot, calls the command the first token names, once and no other, and prints
    when the token names none. -/
def DispatchLaw : Prop :=
  ∀ es', es'.Perm es → ∃ str acts,
    cmdpParseCmd (layout.table es') line.str = .ok (str, acts) ∧
    (∀ e ∈ es, e.1.bytes = firstToken line.str → acts = [callOf line e]) ∧
    ((∀ e ∈ es, e.1.bytes ≠ firstToken line.str) →
      acts = [.print (badCmd (firstToken line.str))])

/-- The commands whose name is not a prefix of the token. -/
def others (token : List UInt8) (es : List Command) : List Command :=
  es.filter fun e => ¬ Selected token e

/-- Either the token names a command, every command whose name is a prefix of the token has the same
    callback, and the slots in front of the first empty one are more than the other commands; or no
    slot is empty and no name is a prefix of the token. -/
def DispatchOk : Prop :=
  (∃ e₀ ∈ es, e₀.1.bytes = firstToken line.str ∧
    (∀ e ∈ es, Selected (firstToken line.str) e → e.2 = e₀.2) ∧
    (others (firstToken line.str) es).length < layout.front) ∨
  (layout.front = maxCmds ∧ ∀ e ∈ es, ¬ Selected (firstToken line.str) e)

theorem selected_of_named {token : List UInt8} {e : Command} (h : e.1.bytes = token) :
    Selected token e := by
  show e.1.bytes <+: token
  exact h ▸ List.prefix_rfl

theorem callOf_inj {e e' : Command} (h : [callOf line e] = [callOf line e']) : e.2 = e'.2 := by
  simpa [callOf] using h

/-- Slots filled with others only are not more than the others. -/
theorem front_le_others {token : List UInt8} {es' : List Command} {k : Nat} (hperm : es'.Perm es)
    (hk : k ≤ es'.length) (hnone : ∀ e ∈ es'.take k, ¬ Selected token e) :
    k ≤ (others token es).length := by
  have hall : (es'.take k).filter (fun e => ¬ Selected token e) = es'.take k := by
    apply List.filter_eq_self.mpr
    intro e he
    simpa using hnone e he
  have hsub := ((List.take_sublist k es').filter (fun e => ¬ Selected token e)).length_le
  rw [hall, List.length_take, Nat.min_eq_left hk] at hsub
  exact hsub.trans (hperm.filter _).length_eq.le

/-- With more slots in front than other commands, every order of the commands selects one. -/
theorem parse_selects (hlt : (others (firstToken line.str) es).length < layout.front)
    {es' : List Command} (hperm : es'.Perm es) :
    ∃ e ∈ es, Selected (firstToken line.str) e ∧
      cmdpParseCmd (layout.table es') line.str = .ok (parsedStr line.str, [callOf line e]) := by
  rcases parse_table layout line hperm.length_eq with ⟨i, h, -, hsel, -, hcall⟩ | ⟨hnone, -⟩
  · exact ⟨es'[i], hperm.mem_iff.mp (List.getElem_mem h), hsel, hcall⟩
  · have hfront : layout.front ≤ es'.length := layout.front_le.trans hperm.length_eq.ge
    exact absurd (front_le_others hperm hfront hnone) (by omega)

/-- A selected command in the first slot is called. -/
theorem parse_head (hfront : 0 < layout.front) {e : Command} (he : e ∈ es)
    (hsel : Selected (firstToken line.str) e) :
    cmdpParseCmd (layout.table (e :: es.erase e)) line.str =
      .ok (parsedStr line.str, [callOf line e]) := by
  have hlen : (e :: es.erase e).length = es.length := (List.perm_cons_erase he).symm.length_eq
  rcases parse_table layout line hlen with ⟨i, h, -, -, hbefore, hcall⟩ | ⟨hnone, -⟩
  · cases i with
    | zero => exact hcall
    | succ i => exact absurd hsel (hbefore 0 (Nat.succ_pos i))
  · obtain ⟨k, hk⟩ : ∃ k, layout.front = k + 1 := ⟨layout.front - 1, by omega⟩
    exact absurd hsel (hnone e (by simp [hk]))

/-- When the other commands fill all slots in front, nothing is selected. -/
theorem parse_others (hge : layout.front ≤ (others (firstToken line.str) es).length) :
    ∃ es', es'.Perm es ∧ cmdpParseCmd (layout.table es') line.str =
      if layout.front = maxCmds then
        .ok (parsedStr line.str, [.print (badCmd (firstToken line.str))])
      else .error (.nullName layout.front) := by
  let others' := es.filter fun e => ! decide (¬ Selected (firstToken line.str) e)
  have hperm : (others (firstToken line.str) es ++ others').Perm es :=
    List.filter_append_perm (fun e => decide (¬ Selected (firstToken line.str) e)) es
  refine ⟨_, hperm, ?_⟩
  have hother : ∀ e ∈ others (firstToken line.str) es, ¬ Selected (firstToken line.str) e := by
    intro e he
    simpa using (List.mem_filter.mp he).2
  rcases parse_table layout line hperm.length_eq with ⟨i, h, hi, hsel, -, -⟩ | ⟨-, hmiss⟩
  · rw [List.getElem_append_left (by omega)] at hsel
    exact absurd hsel (hother _ (List.getElem_mem _))
  · exact hmiss

theorem dispatchLaw_of_ok (hok : DispatchOk layout line) : DispatchLaw layout line := by
  intro es' hperm
  rcases hok with ⟨e₀, hmem, hname, hsame, hlt⟩ | ⟨hfull, hnone⟩
  · obtain ⟨e, he, hsel, hparse⟩ := parse_selects layout line hlt hperm
    refine ⟨_, _, hparse, ?_, ?_⟩
    · intro e₁ he₁ hname₁
      have hcb : e.2 = e₁.2 :=
        (hsame e he hsel).trans (hsame e₁ he₁ (selected_of_named hname₁)).symm
      simp [callOf, hcb]
    · intro hno
      exact absurd hname (hno e₀ hmem)
  · rcases parse_table layout line hperm.length_eq with ⟨i, h, -, hsel, -, -⟩ | ⟨-, hmiss⟩
    · exact absurd hsel (hnone _ (hperm.mem_iff.mp (List.getElem_mem h)))
    · rw [if_pos hfull] at hmiss
      refine ⟨_, _, hmiss, ?_, fun _ => rfl⟩
      intro e he hname
      exact absurd (selected_of_named hname) (hnone e he)

theorem dispatchOk_of_law (hlaw : DispatchLaw layout line) : DispatchOk layout line := by
  rcases Nat.lt_or_ge (others (firstToken line.str) es).length layout.front with hlt | hge
  · left
    obtain ⟨e, he, hsel, hparse⟩ := parse_selects layout line hlt (List.Perm.refl es)
    obtain ⟨str, acts, hlawparse, -, hunknown⟩ := hlaw es (List.Perm.refl es)
    have hacts : (str, acts) = (parsedStr line.str, [callOf line e]) :=
      Except.ok.inj (hlawparse.symm.trans hparse)
    -- the parse called someone, so the token is known
    obtain ⟨e₀, hmem, hname⟩ : ∃ e₀ ∈ es, e₀.1.bytes = firstToken line.str := by
      by_contra hno
      have hprint := hunknown fun e he hname => hno ⟨e, he, hname⟩
      rw [(Prod.mk.inj hacts).2] at hprint
      simp [callOf] at hprint
    refine ⟨e₀, hmem, hname, fun e₁ he₁ hsel₁ => ?_, hlt⟩
    -- in the order that puts it first, this one is called instead of `e₀`
    have hhead := parse_head layout line (Nat.zero_lt_of_lt hlt) he₁ hsel₁
    obtain ⟨str', acts', hlawparse', hnamed', -⟩ := hlaw _ (List.perm_cons_erase he₁).symm
    have hacts' : (str', acts') = (parsedStr line.str, [callOf line e₁]) :=
      Except.ok.inj (hlawparse'.symm.trans hhead)
    exact callOf_inj line ((Prod.mk.inj hacts').2.symm.trans (hnamed' e₀ hmem hname))
  · right
    obtain ⟨es', hperm, hmiss⟩ := parse_others layout line hge
    obtain ⟨str, acts, hlawparse, -, -⟩ := hlaw es' hperm
    have hfull : layout.front = maxCmds := by
      by_contra hgap
      rw [if_neg hgap] at hmiss
      exact absurd (hlawparse.symm.trans hmiss) (by simp)
    refine ⟨hfull, ?_⟩
    have hall : others (firstToken line.str) es = es := by
      apply List.filter_sublist.eq_of_length_le
      have hle := layout.le_maxCmds
      unfold others at hge
      omega
    intro e he
    rw [← hall] at he
    simpa using (List.mem_filter.mp he).2

/-- The law holds exactly under that condition. Names need not be distinct for it. -/
theorem dispatch_law_iff : DispatchLaw layout line ↔ DispatchOk layout line :=
  ⟨dispatchOk_of_law layout line, dispatchLaw_of_ok layout line⟩

end Dispatch

/-- The line `text`, terminated. -/
def lineOf (text : List UInt8) (h : text.length < usbSerialBufSz) : Line where
  str := { data := fun i => text.getD i 0, len := text.length + 1 }
  pos := Nat.le_add_left 1 _
  fits := h
  nul := by simp

/-- A table with one command, in the first slot. -/
def oneCommand : Layout 1 where
  occ := true :: List.replicate 9 false
  slots := by decide
  count := by decide

/-- With the one command "foo", the line "foobar" calls it, and the line "x" has the name of the
    empty second slot compared. -/
theorem dispatch_law_fails :
    let foo : List Command := [(⟨[102, 111, 111], by decide⟩, 1)]
    ¬ @DispatchLaw foo oneCommand (lineOf [102, 111, 111, 98, 97, 114] (by decide)) ∧
      ¬ @DispatchLaw foo oneCommand (lineOf [120] (by decide)) := by
  intro foo
  constructor
  · intro h
    obtain ⟨str, acts, hparse, -, hunknown⟩ := h foo (List.Perm.refl foo)
    rw [hunknown (by decide)] at hparse
    have hcall := (Prod.mk.inj (Except.ok.inj hparse)).2
    cases hcall
  · intro h
    obtain ⟨str, acts, hparse, -, -⟩ := h foo (List.Perm.refl foo)
    cases hparse

end RfPirate
