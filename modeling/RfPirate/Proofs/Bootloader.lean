/-
Module: RfPirate.Proofs.Bootloader
Layer: Proofs
Purpose: `CDC_Task` does what the programmer's commands mean. Its loops fetch the bytes of a block
  while they work; the result is that of fetching all bytes first. So packets that carry a command,
  however they are cut, do what the command does, and the answer comes back as one message. Of a
  command that the host does not finish, the rest counts as zeros.
Main exports: runCommand_exec, cdcTask_whole, cdcTask_cut, RoundCarries, InSession,
  bootloader_session
-/
import RfPirate.Core.Programmer

namespace RfPirate

open Lib Lib.Bytes Lib.Packets Lib.Machine

section Loops

variable {s : Boot} {t : Target} {rs : List UInt8} {n : Nat}

/-! ### Responses -/

theorem writeResponse_eq (rs : List UInt8) (s : Boot) :
    writeResponse rs s = { s with tx := rs.foldl (nextTx s.out) s.tx } := by
  induction rs generalizing s with
  | nil => rfl
  | cons r rs ih => exact ih (writeNextResponseByte r s)

theorem writeResponse_cons (r : UInt8) (rs : List UInt8) (s : Boot) :
    writeResponse (r :: rs) s = writeResponse rs (writeNextResponseByte r s) := rfl

/-- While the host is there, response bytes are items of a message. -/
theorem foldl_nextTx {out : List (List UInt8)} (hout : out ≠ []) (tx : Writer UInt8) :
    rs.foldl (nextTx out) tx = tx.putAll bootEpsize rs := by
  have hnext : ∀ tx r, nextTx out tx r = tx.put bootEpsize r := by
    intro tx r
    rw [nextTx, Writer.put, if_neg hout]
  rw [Writer.putAll]
  congr 1
  funext tx r
  exact hnext tx r

/-! ### Blocks that are read -/

theorem advance_iterate_mem (n : Nat) (t : Target) : (Target.advance^[n] t).mem = t.mem := by
  induction n generalizing t with
  | zero => rfl
  | succ n ih => exact ih t.advance

theorem readLoop_flash_succ (n : Nat) (highByte : Bool) (s : Boot) :
    readLoop (chr 'F') (n + 1) highByte s =
      readLoop (chr 'F') n (!highByte)
        (if highByte then
          (writeNextResponseByte
            (s.target.mem.pgmReadByte (s.target.currAddress ||| highByte.toNat)) s).update
              Target.advance
        else
          writeNextResponseByte
            (s.target.mem.pgmReadByte (s.target.currAddress ||| highByte.toNat)) s) := rfl

theorem readLoop_eeprom_succ (n : Nat) (highByte : Bool) (s : Boot) :
    readLoop (chr 'E') (n + 1) highByte s =
      readLoop (chr 'E') n highByte
        ((writeNextResponseByte
          (s.target.mem.eepromReadByte (s.target.currAddress / 2)) s).update Target.advance) := rfl

/-- The loop from byte `j` of the block on. -/
theorem readLoop_flash_from (n j : Nat) (hs : s.target = Target.advance^[j / 2] t) :
    readLoop (chr 'F') n (decide (j % 2 = 1)) s =
      writeResponse ((List.range' j n).map (BootCommand.flashByte t))
        { s with target := Target.advance^[(j + n) / 2] t } := by
  induction n generalizing j s with
  | zero =>
      obtain ⟨target, boottimeout, out, tx⟩ := s
      simp only at hs
      subst hs
      rfl
  | succ n ih =>
      have hbyte : s.target.mem.pgmReadByte (s.target.currAddress |||
          (decide (j % 2 = 1)).toNat) = BootCommand.flashByte t j := by
        have hparity : (decide (j % 2 = 1)).toNat = j % 2 := by
          rcases Nat.mod_two_eq_zero_or_one j with h | h <;> simp [h]
        rw [BootCommand.flashByte, hs, hparity, advance_iterate_mem]
      have hparity' : (!decide (j % 2 = 1)) = decide ((j + 1) % 2 = 1) := by
        rcases Nat.mod_two_eq_zero_or_one j with h | h <;> simp [Nat.add_mod, h]
      have hindex : j + 1 + n = j + (n + 1) := by omega
      rw [readLoop_flash_succ, hbyte, hparity', List.range'_succ, List.map_cons,
        writeResponse_cons]
      by_cases hhigh : j % 2 = 1
      · have hhalf : (j + 1) / 2 = j / 2 + 1 := by omega
        have hnext : ((writeNextResponseByte (BootCommand.flashByte t j) s).update
            Target.advance).target = Target.advance^[(j + 1) / 2] t := by
          rw [hhalf, Function.iterate_succ_apply', ← hs]
          rfl
        simp only [hhigh, decide_true, if_true]
        rw [ih (j + 1) hnext, hindex]
        rfl
      · have hhalf : (j + 1) / 2 = j / 2 := by omega
        have hnext : (writeNextResponseByte (BootCommand.flashByte t j) s).target =
            Target.advance^[(j + 1) / 2] t := by
          rw [hhalf, ← hs]
          rfl
        simp only [hhigh, decide_false, Bool.false_eq_true, if_false]
        rw [ih (j + 1) hnext, hindex]
        rfl

theorem readLoop_flash (n : Nat) (s : Boot) :
    readLoop (chr 'F') n false s =
      writeResponse ((List.range n).map (BootCommand.flashByte s.target))
        { s with target := Target.advance^[n / 2] s.target } := by
  have hloop := readLoop_flash_from (s := s) n 0 (t := s.target) rfl
  rwa [Nat.zero_add, ← List.range_eq_range'] at hloop

theorem readLoop_eeprom_from (n j : Nat) (highByte : Bool)
    (hs : s.target = Target.advance^[j] t) :
    readLoop (chr 'E') n highByte s =
      writeResponse ((List.range' j n).map (BootCommand.eepromByte t))
        { s with target := Target.advance^[j + n] t } := by
  induction n generalizing j s with
  | zero =>
      obtain ⟨target, boottimeout, out, tx⟩ := s
      simp only at hs
      subst hs
      rfl
  | succ n ih =>
      have hbyte : s.target.mem.eepromReadByte (s.target.currAddress / 2) =
          BootCommand.eepromByte t j := by
        rw [BootCommand.eepromByte, hs, advance_iterate_mem]
      have hnext : ((writeNextResponseByte (BootCommand.eepromByte t j) s).update
          Target.advance).target = Target.advance^[j + 1] t := by
        rw [Function.iterate_succ_apply', ← hs]
        rfl
      have hindex : j + 1 + n = j + (n + 1) := by omega
      rw [readLoop_eeprom_succ, hbyte, List.range'_succ, List.map_cons, writeResponse_cons,
        ih (j + 1) hnext, hindex]
      rfl

theorem readLoop_eeprom (n : Nat) (s : Boot) :
    readLoop (chr 'E') n false s =
      writeResponse ((List.range n).map (BootCommand.eepromByte s.target))
        { s with target := Target.advance^[n] s.target } := by
  have hloop := readLoop_eeprom_from (s := s) n 0 (t := s.target) false rfl
  rwa [Nat.zero_add, ← List.range_eq_range'] at hloop

/-! ### Blocks that are written -/

/-- With the low byte of a word held, the loop goes on as with that byte before the data. -/
theorem writeLoop_flash_from (n : Nat) (highByte : Bool) (low : UInt8) (s : Boot) :
    writeLoop (chr 'F') n highByte low s =
      { s with
        out := (fetchMany 0 n s.out).2
        target := BootCommand.fillWords
          (if highByte then low :: (fetchMany 0 n s.out).1 else (fetchMany 0 n s.out).1)
          s.target } := by
  induction n generalizing highByte low s with
  | zero => cases highByte <;> rfl
  | succ n ih =>
      rw [writeLoop, if_pos rfl]
      cases highByte with
      | false =>
          simp only [Bool.false_eq_true, if_false]
          rw [ih]
          rfl
      | true =>
          simp only [if_true]
          rw [ih]
          rfl

theorem writeLoop_eeprom (n : Nat) (highByte : Bool) (low : UInt8) (s : Boot) :
    writeLoop (chr 'E') n highByte low s =
      { s with
        out := (fetchMany 0 n s.out).2
        target := BootCommand.writeBytes (fetchMany 0 n s.out).1 s.target } := by
  induction n generalizing s with
  | zero => rfl
  | succ n ih =>
      rw [writeLoop, if_neg (by decide), ih]
      rfl

end Loops

/-! ### Commands -/

section Commands

variable {s : Boot} {out' : List (List UInt8)}

theorem block_size {size : Nat} (h : size < 2 ^ 16) :
    (UInt8.ofNat (size / 256)).toNat * 256 + (UInt8.ofNat size).toNat = size := by
  rw [UInt8.toNat_ofNat', UInt8.toNat_ofNat']
  omega

/-- The bytes that name a block. -/
theorem readWriteMemoryBlock_eq (command : UInt8) {size : Nat} {memoryType : UInt8}
    (hsize : size < 2 ^ 16)
    (h : fetchMany 0 3 s.out = (BootCommand.blockArgs size memoryType, out')) :
    readWriteMemoryBlock command s =
      transferBlock command memoryType size { s with out := out' } := by
  obtain ⟨hhigh, h⟩ := fetchMany_cons_inv h
  obtain ⟨hlow, h⟩ := fetchMany_cons_inv h
  obtain ⟨htype, h⟩ := fetchMany_cons_inv h
  have hout : (fetch 0 (fetch 0 (fetch 0 s.out).2).2).2 = out' := congrArg Prod.snd h
  show transferBlock command (fetch 0 (fetch 0 (fetch 0 s.out).2).2).1
    ((fetch 0 s.out).1.toNat * 256 + (fetch 0 (fetch 0 s.out).2).1.toNat)
    { s with out := (fetch 0 (fetch 0 (fetch 0 s.out).2).2).2 } = _
  rw [hhigh, hlow, htype, hout, block_size hsize]

theorem transferBlock_writeFlash (size : Nat) (s : Boot) :
    transferBlock (chr 'B') (chr 'F') size s =
      writeNextResponseByte charReturn
        ((writeLoop (chr 'F') size false 0
          (s.update fun t => { t with mem := t.mem.bootPageErase s.target.currAddress })).update
            fun t => { t with mem := t.mem.bootPageWrite s.target.currAddress }) := rfl

theorem transferBlock_writeEeprom (size : Nat) (s : Boot) :
    transferBlock (chr 'B') (chr 'E') size s =
      writeNextResponseByte charReturn (writeLoop (chr 'E') size false 0 s) := rfl

/-- A command whose bytes are fetched does and answers what it means. -/
theorem runCommand_exec (c : BootCommand) (hvalid : c.Valid)
    (h : fetchMany 0 c.args.length s.out = (c.args, out')) :
    runCommand c.opcode s =
      writeResponse (c.exec s.target).2 { s with target := (c.exec s.target).1, out := out' } := by
  cases c with
  | writeFlash data =>
      obtain ⟨out₁, hhead, hdata⟩ := fetchMany_append_inv h
      show readWriteMemoryBlock (chr 'B') s = _
      rw [readWriteMemoryBlock_eq _ hvalid hhead, transferBlock_writeFlash, writeLoop_flash_from]
      simp only [Boot.update, hdata, Bool.false_eq_true, if_false]
      rfl
  | writeEeprom data =>
      obtain ⟨out₁, hhead, hdata⟩ := fetchMany_append_inv h
      show readWriteMemoryBlock (chr 'B') s = _
      rw [readWriteMemoryBlock_eq _ hvalid hhead, transferBlock_writeEeprom, writeLoop_eeprom]
      simp only [hdata]
      rfl
  | readFlash size =>
      show readWriteMemoryBlock (chr 'g') s = _
      rw [readWriteMemoryBlock_eq _ hvalid h]
      exact readLoop_flash size _
  | readEeprom size =>
      show readWriteMemoryBlock (chr 'g') s = _
      rw [readWriteMemoryBlock_eq _ hvalid h]
      exact readLoop_eeprom size _
  | badBlock write size memoryType =>
      obtain ⟨hsize, htype⟩ := hvalid
      cases write with
      | false =>
          show readWriteMemoryBlock (chr 'g') s = _
          rw [readWriteMemoryBlock_eq _ hsize h, transferBlock, if_pos htype]
          rfl
      | true =>
          show readWriteMemoryBlock (chr 'B') s = _
          rw [readWriteMemoryBlock_eq _ hsize h, transferBlock, if_pos htype]
          rfl
  | setAddress high low =>
      obtain ⟨hhigh, h⟩ := fetchMany_cons_inv h
      obtain ⟨hlow, h⟩ := fetchMany_cons_inv h
      cases h
      rw [← hhigh, ← hlow]
      rfl
  | select b | setLock b | fillHigh b | fillLow b | writeByte b =>
      obtain ⟨rfl, h⟩ := fetchMany_cons_inv h
      cases h
      rfl
  | unknown command =>
      have hnot : command ∉ BootCommand.known := hvalid
      simp only [BootCommand.known, List.mem_cons, List.not_mem_nil, or_false, not_or] at hnot
      cases h
      show runCommand command s = writeNextResponseByte (chr '?') s
      simp [runCommand, hnot]
  | _ =>
      cases h
      rfl

/-! ### The task -/

/-- `CDC_Task` for packets whose first items are the bytes of a command: what is held after them
    tells whether the host is still there for the answer. -/
theorem cdcTask_runCommand (c : BootCommand) (hvalid : c.Valid) (hpackets : s.out ≠ [])
    (h : fetchMany 0 c.bytes.length s.out = (c.bytes, out')) :
    cdcTask s =
      endTask (writeResponse (c.exec s.target).2
        { s with target := (c.exec s.target).1, boottimeout := 0, out := out' }) := by
  obtain ⟨hopcode, hargs⟩ := fetchMany_cons_inv h
  show (if s.out = [] then s
    else endTask (runCommand (fetch 0 s.out).1
      { s with boottimeout := 0, out := (fetch 0 s.out).2 })) = _
  rw [if_neg hpackets, hopcode, runCommand_exec c hvalid hargs]

/-- A command that arrives whole is done, and its answer is sent as one message. -/
theorem cdcTask_whole (c : BootCommand) (hvalid : c.Valid) {ps more : List (List UInt8)}
    (hcarries : Carries c.bytes ps) (hout : s.out = ps ++ more) (hbank : s.tx.bank = []) :
    ∃ qs, IsMessage bootEpsize (c.exec s.target).2 qs ∧
      cdcTask s =
        { target := (c.exec s.target).1
          boottimeout := 0
          out := more
          tx := ⟨[], s.tx.sent ++ qs⟩ } := by
  obtain ⟨junk, hread⟩ := hcarries.fetchMany_eq 0 more
  obtain ⟨qs, hsent, hmessage⟩ := Writer.finish_putAll (show 0 < bootEpsize by decide) s.tx.sent
    (c.exec s.target).2
  have hpackets : s.out ≠ [] := by
    rw [hout]
    exact List.append_ne_nil_of_left_ne_nil hcarries.packets_ne_nil more
  refine ⟨qs, hmessage, ?_⟩
  rw [← hout] at hread
  rw [cdcTask_runCommand c hvalid hpackets hread, writeResponse_eq, endTask,
    if_neg (List.cons_ne_nil junk more), foldl_nextTx (List.cons_ne_nil junk more)]
  have htx : s.tx = ⟨[], s.tx.sent⟩ := by rw [← hbank]
  rw [htx, hsent]
  rfl

/-- Nothing is sent to a host that is gone. -/
theorem foldl_nextTx_detached (rs : List UInt8) (tx : Writer UInt8) :
    (rs.foldl (nextTx []) tx).sent = tx.sent := by
  induction rs generalizing tx with
  | nil => rfl
  | cons r rs ih =>
      rw [List.foldl_cons, ih, nextTx]
      split <;> rfl

/-- A command whose end does not arrive is done as if the rest of it were zeros, without an
    answer. -/
theorem cdcTask_cut (c : BootCommand) (hvalid : c.Valid) {k : Nat} (hpackets : s.out ≠ [])
    (hbytes : c.bytes = s.out.flatten ++ List.replicate (k + 1) 0) :
    cdcTask s =
      { target := (c.exec s.target).1
        boottimeout := 0
        out := []
        tx := ⟨[], s.tx.sent⟩ } := by
  have hlen : c.bytes.length = s.out.flatten.length + (k + 1) := by
    rw [hbytes, List.length_append, List.length_replicate]
  have hitems : (fetchMany 0 c.bytes.length s.out).1 = c.bytes := by
    rw [(fetchMany_flatten _ _).1, hlen]
    conv_rhs => rw [hbytes]
    rw [List.take_append, List.take_of_length_le (Nat.le_add_right _ _), Nat.add_sub_cancel_left,
      List.take_replicate, Nat.min_eq_left (by omega)]
  have hrest : (fetchMany 0 c.bytes.length s.out).2 = [] := fetchMany_run_out (by omega)
  rw [cdcTask_runCommand c hvalid hpackets (Prod.ext hitems hrest), writeResponse_eq, endTask,
    if_pos rfl]
  simp only [foldl_nextTx_detached]

end Commands

/-! ### Sessions -/

section Sessions

variable {m m' : BootMain} {t : Target} {answers : List (List UInt8)}
  {s : Boot} {cs : List (BootCommand × Bool)} {css : List (List (BootCommand × Bool))}
  {packets : List (List UInt8)} {rounds : List (List (List UInt8))}

/-- What the host does in a round of the main loop: nothing, a whole command, or the first part of
    one before it is detached. What is left of that command is zeros. -/
inductive RoundCarries : List (BootCommand × Bool) → List (List UInt8) → Prop
  | idle : RoundCarries [] []
  | whole (c : BootCommand) (ps : List (List UInt8)) : c.Valid → Carries c.bytes ps →
      RoundCarries [(c, true)] ps
  | cut (c : BootCommand) (ps : List (List UInt8)) (k : Nat) : c.Valid → ps ≠ [] →
      c.bytes = ps.flatten ++ List.replicate (k + 1) 0 → RoundCarries [(c, false)] ps

/-- Between rounds the loop has done what the commands mean and has sent the answers. -/
structure InSession (t : Target) (answers : List (List UInt8)) (s : Boot) : Prop where
  mem : s.target.mem = t.mem
  currAddress : s.target.currAddress = t.currAddress
  target : s.target.runBootloader = true → s.target = t
  out : s.out = []
  bank : s.tx.bank = []
  sent : ∃ pss, s.tx.sent = pss.flatten ∧ List.Forall₂ (IsMessage bootEpsize) answers pss

theorem inSession_init (mem : AvrMemory) :
    InSession ⟨mem, 0, true⟩ [] (BootMain.init mem).boot :=
  ⟨rfl, rfl, fun _ => rfl, rfl, rfl, [], rfl, .nil⟩

theorem pulse_boot (m : BootMain) : ∃ k, (pulse m).boot = { m.boot with boottimeout := k } := by
  simp only [pulse]
  split_ifs <;> exact ⟨_, rfl⟩

/-- The LED does not show in the session. -/
theorem InSession.pulse (h : InSession t answers m.boot) : InSession t answers (pulse m).boot := by
  obtain ⟨k, hboot⟩ := pulse_boot m
  rw [hboot]
  exact ⟨h.mem, h.currAddress, h.target, h.out, h.bank, h.sent⟩

/-- Nor does the time-out, but for the end of the loop. -/
theorem InSession.checkTimeout (h : InSession t answers s) :
    InSession t answers (checkTimeout s) := by
  unfold RfPirate.checkTimeout
  split
  · exact ⟨h.mem, h.currAddress, fun hrun => Bool.noConfusion hrun, h.out, h.bank, h.sent⟩
  · exact h

/-- A round of the loop does what its packets carry. -/
theorem InSession.mainIteration (h : InSession t answers m.boot)
    (hrun : m.boot.target.runBootloader = true) (hround : RoundCarries cs packets) :
    ∃ t' answers', Machine.run programStep t cs = some (t', answers') ∧
      InSession t' (answers ++ answers') (mainIteration packets m).boot := by
  have htarget := h.target hrun
  have hpackets : m.boot.out ++ packets = packets := by rw [h.out, List.nil_append]
  suffices htask : ∃ t' answers', Machine.run programStep t cs = some (t', answers') ∧
      InSession t' (answers ++ answers') (cdcTask { m.boot with out := m.boot.out ++ packets }) by
    obtain ⟨t', answers', hmachine, hsession⟩ := htask
    exact ⟨t', answers', hmachine,
      (InSession.pulse (m := { m with boot := _ }) hsession).checkTimeout⟩
  obtain ⟨pss, hsent, hmessages⟩ := h.sent
  cases hround with
  | idle =>
      refine ⟨t, [], rfl, ?_⟩
      rw [List.append_nil, hpackets]
      exact ⟨h.mem, h.currAddress, h.target, rfl, h.bank, h.sent⟩
  | whole c ps hvalid hcarries =>
      obtain ⟨qs, hmessage, htask⟩ := cdcTask_whole (s := { m.boot with out := packets }) c hvalid
        hcarries (List.append_nil packets).symm h.bank
      refine ⟨(c.exec t).1, [(c.exec t).2], rfl, ?_⟩
      rw [hpackets, htask, ← htarget]
      refine ⟨rfl, rfl, fun _ => rfl, rfl, rfl, pss ++ [qs], ?_, ?_⟩
      · simp [hsent]
      · exact List.rel_append hmessages (.cons hmessage .nil)
  | cut c ps k hvalid hne hbytes =>
      refine ⟨(c.exec t).1, [], rfl, ?_⟩
      rw [hpackets, cdcTask_cut (s := { m.boot with out := packets }) c hvalid hne hbytes,
        List.append_nil, ← htarget]
      exact ⟨rfl, rfl, fun _ => rfl, rfl, rfl, h.sent⟩

theorem bootStep_inv {o : List Unit} (h : bootStep m packets = some (m', o)) :
    m.boot.target.runBootloader = true ∧ m' = mainIteration packets m := by
  unfold bootStep at h
  split at h
  · rename_i hrun
    cases h
    exact ⟨hrun, rfl⟩
  · cases h

/-- Rounds of the loop from a state of a session. -/
theorem InSession.run {o : List Unit} (h : InSession t answers m.boot)
    (hrounds : List.Forall₂ RoundCarries css rounds)
    (hrun : Machine.run bootStep m rounds = some (m', o)) :
    ∃ t' answers', Machine.run programStep t css.flatten = some (t', answers') ∧
      InSession t' (answers ++ answers') m'.boot := by
  induction hrounds generalizing m t answers o with
  | nil =>
      cases hrun
      exact ⟨t, [], rfl, by rwa [List.append_nil]⟩
  | cons hround _ ih =>
      obtain ⟨m₁, o₁, o₂, hstep, hrest, -⟩ := run_cons_inv hrun
      obtain ⟨hloop, rfl⟩ := bootStep_inv hstep
      obtain ⟨t₁, answers₁, hfirst, hsession⟩ := h.mainIteration hloop hround
      obtain ⟨t', answers', hlater, hend⟩ := ih hsession hrest
      refine ⟨t', answers₁ ++ answers', run_append hfirst hlater, ?_⟩
      rwa [← List.append_assoc]

/-- The bootloader is the programmer's machine: whatever the host sends, in whatever packets, the
    memories hold what the commands mean, and the packets that were sent are the answers. -/
theorem bootloader_session {mem : AvrMemory} {o : List Unit}
    (hrounds : List.Forall₂ RoundCarries css rounds)
    (hrun : Machine.run bootStep (BootMain.init mem) rounds = some (m', o)) :
    ∃ t' answers', Machine.run programStep ⟨mem, 0, true⟩ css.flatten = some (t', answers') ∧
      m'.boot.target.mem = t'.mem ∧ m'.boot.target.currAddress = t'.currAddress ∧
      reassemble bootEpsize [] m'.boot.tx.sent = answers' := by
  obtain ⟨t', answers', hmachine, hend⟩ := (inSession_init mem).run hrounds hrun
  obtain ⟨pss, hsent, hmessages⟩ := hend.sent
  rw [List.nil_append] at hmessages
  refine ⟨t', answers', hmachine, hend.mem, hend.currAddress, ?_⟩
  rw [hsent, reassemble_messages hmessages]

/-- A command in two packets with more behind it, a round without one, and a block that is cut. -/
theorem bootloader_session_short : ∃ (m' : BootMain) (t' : Target) (answers' : List (List UInt8)),
    run programStep ⟨.erased, 0, true⟩
      [(.setAddress 0 64, true), (.writeFlash [1, 0], false)] = some (t', answers') ∧
    m'.boot.target.mem = t'.mem ∧ m'.boot.target.currAddress = t'.currAddress ∧
    reassemble bootEpsize [] m'.boot.tx.sent = answers' := by
  have hfirst : RoundCarries [(.setAddress 0 64, true)] [[chr 'A', 0], [64, 99]] :=
    .whole _ _ trivial (.more [chr 'A', 0] (.last 64 [] [99]))
  have hlast : RoundCarries [(.writeFlash [1, 0], false)] [[chr 'B', 0, 2, chr 'F', 1]] :=
    .cut _ _ 0 (show 2 < 2 ^ 16 by decide) (List.cons_ne_nil _ _) rfl
  have hruns : (run bootStep (BootMain.init .erased)
      [[[chr 'A', 0], [64, 99]], [], [[chr 'B', 0, 2, chr 'F', 1]]]).isSome := by decide
  obtain ⟨⟨m', o⟩, hrun⟩ := Option.isSome_iff_exists.mp hruns
  exact ⟨m', bootloader_session (.cons hfirst (.cons .idle (.cons hlast .nil))) hrun⟩

end Sessions

end RfPirate
