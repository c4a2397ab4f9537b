/-
Module: RfPirate.Proofs.SerialMachine
Layer: Proofs
Purpose: The whole serial object against the machine of its lines. Receiving and parsing stay within
  the receive half of the object, and a parse prints at most, so the machine with `process`,
  `printf` and the lookup of commands simulates the one without them. A parse returns if the command
  is not found or calls nobody, which never happens with the table that `cmdp_init` leaves.
Main exports: SameRx, UsbSerial.parsed, Parses, not_parses_cmdTbl, parseCmd_parsed,
  parseCmd_isSome_iff, Within, path_simulates
-/
import RfPirate.Core.SerialPath
import RfPirate.Lib.Simulation
import RfPirate.Proofs.SerialPath

namespace RfPirate

open Lib Lib.CString Lib.Machine

section Serial

variable {tbl : CmdTable} {o : PostInc} {ser ser' : UsbSerial} {t : SerialPath}

/-! ### The parse of a line -/

/-- The receive half of two serial objects is the same. -/
structure SameRx (ser ser' : UsbSerial) : Prop where
  rxP : ser'.rxP = ser.rxP
  rxIdx : ser'.rxIdx = ser.rxIdx
  rxQ : ser'.rxQ = ser.rxQ

/-- The serial object with one of its lines parsed. -/
def UsbSerial.parsed (ser : UsbSerial) (p : Nat) : UsbSerial :=
  { ser with rxQ := Function.update ser.rxQ p (parsedStr (ser.rxQ p)) }

theorem SameRx.refl (ser : UsbSerial) : SameRx ser ser := ⟨rfl, rfl, rfl⟩

theorem SameRx.trans {ser ser' ser'' : UsbSerial} (h : SameRx ser ser') (h' : SameRx ser' ser'') :
    SameRx ser ser'' :=
  ⟨h'.rxP.trans h.rxP, h'.rxIdx.trans h.rxIdx, h'.rxQ.trans h.rxQ⟩

/-- The parse of a line is within the receive half. -/
theorem SameRx.parsed {ser ser' : UsbSerial} (h : SameRx ser ser') (p : Nat) :
    SameRx (ser.parsed p) (ser'.parsed p) := by
  refine ⟨h.rxP, h.rxIdx, ?_⟩
  show Function.update ser'.rxQ p (parsedStr (ser'.rxQ p)) = _
  rw [h.rxQ]
  rfl

theorem printf_sameRx (o : PostInc) (ser : UsbSerial) (text : CStr) :
    SameRx ser (printf o ser text) := by
  unfold printf
  split <;> exact ⟨rfl, rfl, rfl⟩

/-- A parse prints, at most. -/
theorem foldlM_cmdAct {acts : List CmdAct} {ser ser' : UsbSerial}
    (h : acts.foldlM (cmdAct o) ser = some ser') : SameRx ser ser' := by
  induction acts generalizing ser with
  | nil =>
      obtain rfl := Option.some.inj h
      exact .refl _
  | cons act acts ih =>
      rw [List.foldlM_cons] at h
      obtain ⟨ser₁, hact, hrest⟩ := Option.bind_eq_some_iff.mp h
      cases act with
      | call cb argc tok => cases hact
      | print text =>
          cases hact
          exact (printf_sameRx o ser (toCStr text)).trans (ih hrest)

/-- The parse of a line ends, and calls nobody. -/
def Parses (tbl : CmdTable) (str : StringT) : Prop :=
  ∃ line acts, cmdpParseCmd tbl str = .ok (line, acts) ∧ ∀ act ∈ acts, ∃ text, act = .print text

/-- With no command registered it is a fault: the token is NULL, or the first name is. -/
theorem cmdTbl_faults (str : StringT) : cmdpParseCmd cmdTbl str = .error .nullToken ∨
    cmdpParseCmd cmdTbl str = .error (.nullName 0) := by
  cases hcmd : (tokenize str).token.cmd with
  | none => exact .inl (by simp [cmdpParseCmd, hcmd])
  | some p =>
      have hlook : ∀ cmd, matchLoop cmdTbl cmd maxCmds 0 = .nullName 0 := fun _ => rfl
      exact .inr (by simp [cmdpParseCmd, hcmd, hlook])

theorem not_parses_cmdTbl (str : StringT) : ¬ Parses cmdTbl str := by
  rintro ⟨line, acts, hparse, -⟩
  rcases cmdTbl_faults str with heq | heq <;>
  · rw [heq] at hparse
    cases hparse

/-- What a parse leaves. -/
theorem parseCmd_parsed {p : Nat} (h : ser.parseCmd tbl o p = some ser') :
    SameRx (ser.parsed p) ser' := by
  unfold UsbSerial.parseCmd at h
  split at h
  · cases h
  · rename_i line acts hparse
    obtain rfl := cmdpParseCmd_line hparse
    exact foldlM_cmdAct h

theorem foldlM_cmdAct_isSome {acts : List CmdAct} (ser : UsbSerial) :
    (acts.foldlM (cmdAct o) ser).isSome ↔ ∀ act ∈ acts, ∃ text, act = .print text := by
  induction acts generalizing ser with
  | nil => simp
  | cons act acts ih =>
      rw [List.foldlM_cons, List.forall_mem_cons]
      cases act with
      | call cb argc tok => exact iff_of_false (by simp [cmdAct]) (by simp)
      | print text =>
          show (acts.foldlM (cmdAct o) (printf o ser (toCStr text))).isSome ↔ _
          rw [ih]
          exact (and_iff_right ⟨text, rfl⟩).symm

/-- When it returns. -/
theorem parseCmd_isSome_iff {p : Nat} :
    (ser.parseCmd tbl o p).isSome ↔ Parses tbl (ser.rxQ p) := by
  cases hparse : cmdpParseCmd tbl (ser.rxQ p) with
  | error f => simp [UsbSerial.parseCmd, Parses, hparse]
  | ok r =>
      obtain ⟨line, acts⟩ := r
      simp only [UsbSerial.parseCmd, hparse, Parses, foldlM_cmdAct_isSome]
      constructor
      · exact fun h => ⟨line, acts, rfl, h⟩
      · rintro ⟨line', acts', heq, h⟩
        cases heq
        exact h

/-! ### Output -/

/-- An output is a part of another one, in its order, and all posts are in it. -/
structure Within (out all : List SerialOut) : Prop where
  sublist : out.Sublist all
  posts : posts out = posts all

theorem Within.refl (out : List SerialOut) : Within out out := ⟨.refl out, rfl⟩

theorem Within.append {out out' all all' : List SerialOut} (h : Within out all)
    (h' : Within out' all') : Within (out ++ out') (all ++ all') := by
  refine ⟨h.sublist.append h'.sublist, ?_⟩
  have happend : ∀ l l', RfPirate.posts (l ++ l') = RfPirate.posts l ++ RfPirate.posts l' :=
    fun _ _ => List.filterMap_append
  rw [happend, happend, h.posts, h'.posts]

/-! ### Bytes -/

/-- The receive half does not look at the other one. -/
theorem SameRx.editRx (h : SameRx ser ser') (b : UInt8) :
    SameRx (ser.editRx b) (ser'.editRx b) := by
  unfold UsbSerial.editRx UsbSerial.storeRx
  rw [h.rxP, h.rxIdx, h.rxQ]
  split <;> exact ⟨rfl, rfl, rfl⟩

theorem SameRx.bufferRxDispatch (h : SameRx ser ser') (o : PostInc) :
    SameRx (bufferRxDispatch o ser).1 (bufferRxDispatch o ser').1 ∧
      (bufferRxDispatch o ser').2 = (bufferRxDispatch o ser).2 := by
  unfold RfPirate.bufferRxDispatch
  rw [h.rxP, h.rxIdx, h.rxQ]
  exact ⟨⟨rfl, rfl, rfl⟩, rfl⟩

theorem SameRx.bufferRx (h : SameRx ser ser') (o : PostInc) (b : UInt8) :
    SameRx (bufferRx o ser b).1 (bufferRx o ser' b).1 ∧
      (bufferRx o ser' b).2 = (bufferRx o ser b).2 := by
  have hedit := h.editRx b
  obtain ⟨hline, hposts⟩ := hedit.bufferRxDispatch o
  unfold RfPirate.bufferRx
  split
  · exact h.bufferRxDispatch o
  · simp only [hedit.rxIdx, h.rxIdx, h.rxQ, h.rxP]
    split
    · exact ⟨hline, by rw [hposts]⟩
    · exact ⟨hedit, rfl⟩

theorem SameRx.rxLoop (h : SameRx ser ser') (o : PostInc) (bs : List UInt8) :
    SameRx (rxLoop o ser bs).1 (rxLoop o ser' bs).1 ∧
      (rxLoop o ser' bs).2 = (rxLoop o ser bs).2 := by
  induction bs generalizing ser ser' with
  | nil => exact ⟨h, rfl⟩
  | cons b bs ih =>
      obtain ⟨hfirst, hout⟩ := h.bufferRx o b
      obtain ⟨hrest, hout'⟩ := ih hfirst
      refine ⟨hrest, ?_⟩
      show (RfPirate.bufferRx o ser' b).2 ++ _ = (RfPirate.bufferRx o ser b).2 ++ _
      rw [hout, hout']

/-- The loop of `process` is a run of the path, one step a byte. -/
theorem rxLoop_run (o : PostInc) (bs : List UInt8) (t : SerialPath) :
    run (pathStep o) t (bs.map .rx) =
      some ({ ser := (rxLoop o t.ser bs).1
              queue := (posts (rxLoop o t.ser bs).2).foldl postLine t.queue
              posted := t.posted ++ posts (rxLoop o t.ser bs).2 }, (rxLoop o t.ser bs).2) := by
  induction bs generalizing t with
  | nil => simp [rxLoop, posts]
  | cons b bs ih =>
      have happend : posts (rxLoop o t.ser (b :: bs)).2 = posts (bufferRx o t.ser b).2 ++
          posts (rxLoop o (bufferRx o t.ser b).1 bs).2 := List.filterMap_append
      rw [List.map_cons, run, pathStep, happend, List.foldl_append, ← List.append_assoc]
      simp only [ih]
      rfl

/-- Sending a message stays out of the receive half, and posts nothing. -/
theorem processTx_sameRx (o : PostInc) (ser : UsbSerial) :
    SameRx ser (processTx o ser).1 ∧ posts (processTx o ser).2 = [] := by
  unfold processTx
  split <;> exact ⟨⟨rfl, rfl, rfl⟩, rfl⟩

/-- `process` is that loop, and then sends a message. -/
theorem process_within (o : PostInc) (ser : UsbSerial) (bank : List UInt8) :
    SameRx (rxLoop o ser (received bank)).1 (process o ser bank).1 ∧
      Within (rxLoop o ser (received bank)).2 (process o ser bank).2 := by
  obtain ⟨hsent, hnone⟩ := processTx_sameRx o (rxLoop o ser (received bank)).1
  refine ⟨hsent, List.sublist_append_left _ _, ?_⟩
  have happend : posts (process o ser bank).2 = posts (rxLoop o ser (received bank)).2 ++
      posts (processTx o (rxLoop o ser (received bank)).1).2 := List.filterMap_append
  rw [happend, hnone, List.append_nil]

/-! ### The simulation -/

/-- The path stands where the whole object does. -/
structure SamePath (s : SerialState) (t : SerialPath) : Prop where
  ser : SameRx t.ser s.ser
  queue : t.queue = s.queue

theorem within_composes : Composes fun all out : List SerialOut => Within out all where
  nil := .refl []
  append := Within.append

/-- A round of the dispatcher. Of what the parse does, the path has the line. -/
theorem SamePath.dispatch {s s' : SerialState} {out : List SerialOut} (h : SamePath s t)
    (hstep : serialStep tbl o s .dispatch = some (s', out)) :
    ∃ t', pathStep o t .dispatch = some (t', []) ∧ out = [] ∧ SamePath s' t' := by
  simp only [serialStep] at hstep
  simp only [pathStep, h.queue]
  split at hstep
  · rename_i hempty
    cases hstep
    exact ⟨t, if_pos hempty, rfl, h⟩
  rename_i hpending
  rw [if_neg hpending]
  refine ⟨_, rfl, ?_⟩
  split at hstep
  · rename_i hline
    obtain ⟨ser, hparse, heq⟩ := Option.map_eq_some_iff.mp hstep
    cases heq
    refine ⟨rfl, ?_, rfl⟩
    simp only [if_pos hline]
    exact (h.ser.parsed _).trans (parseCmd_parsed hparse)
  · rename_i hline
    cases hstep
    refine ⟨rfl, ?_, rfl⟩
    simp only [if_neg hline]
    exact h.ser

/-- Every step of the whole object is a run of the path, whatever commands are registered. -/
theorem path_simulates (tbl : CmdTable) (o : PostInc) :
    Simulates (serialStep tbl o) (pathStep o) SamePath (fun _ => True)
      fun all out => Within out all := by
  rintro s t act s' all h hstep
  cases act with
  | process bank =>
      cases hstep
      obtain ⟨hsent, hwithin⟩ := process_within o s.ser bank
      obtain ⟨hrx, hout⟩ := h.ser.rxLoop o (received bank)
      refine ⟨(received bank).map .rx, _, _, fun _ _ => trivial, rxLoop_run o (received bank) t,
        hout ▸ hwithin, hrx.trans hsent, ?_⟩
      show (posts (rxLoop o t.ser (received bank)).2).foldl postLine t.queue =
        (posts (process o s.ser bank).2).foldl postLine s.queue
      rw [← hout, hwithin.posts, h.queue]
  | post event data =>
      simp only [serialStep] at hstep
      split at hstep
      · cases hstep
      · rename_i hline
        cases hstep
        have hpost : pathStep o t (.post event data) =
            some ({ t with queue := evtHandlerEvent t.queue event data }, []) := if_neg hline
        refine ⟨[.post event data], { t with queue := evtHandlerEvent t.queue event data }, [],
          fun _ _ => trivial, ?_, .refl [], h.ser, ?_⟩
        · simp only [run, hpost]
          rfl
        · show evtHandlerEvent t.queue event data = evtHandlerEvent s.queue event data
          rw [h.queue]
  | dispatch =>
      obtain ⟨t', hround, rfl, hsame⟩ := h.dispatch hstep
      refine ⟨[.dispatch], t', _, fun _ _ => trivial, ?_, .refl [], hsame⟩
      simp only [run, hround]
      rfl

end Serial

end RfPirate
