/-
Module: RfPirate.Proofs.SerialPath
Layer: Proofs
Purpose: Receive buffers between `buffer_rx` and the parser, over every interleaving of received
  bytes, other posts and rounds of the dispatcher. Two laws: the buffers rotate and a posted line is
  left alone until it is parsed, and the parser finds its tokens inside the line. Neither holds of
  the code in general; each comes with the condition under which it does.
Main exports: EventQueue.lines, bufferRx_cases, PathInv, RotateLaw, rotate_law_iff, ParseLaw,
  parse_law
-/
import RfPirate.Core.SerialPath
import RfPirate.Proofs.EvtQueue
import RfPirate.Proofs.Tokenizer

namespace RfPirate

open Lib Lib.Machine

/-! ### Posted lines that are not parsed yet -/

/-- The buffer an event hands to the parser. -/
def lineIndex (e : EventT) : Option Nat :=
  if e.event = eventSerialRecv then some e.data.toNat else none

/-- The buffers of the posted lines that are not parsed yet, oldest first. -/
def EventQueue.lines (q : EventQueue) : List Nat := q.pending.filterMap lineIndex

section Lines

variable {q : EventQueue} {pending : List EventT}

theorem QueueView.lines_eq (h : QueueView q pending) : q.lines = pending.filterMap lineIndex := by
  rw [EventQueue.lines, h.pending_eq]

/-- A post keeps the view and adds the line it carries, unless the queue is full. -/
theorem evtHandlerEvent_lines (h : QueueView q q.pending) (event : UInt8) (data : UInt16) :
    QueueView (evtHandlerEvent q event data) (evtHandlerEvent q event data).pending ∧
    ((evtHandlerEvent q event data).lines = q.lines ∨
      (evtHandlerEvent q event data).lines = q.lines ++ (lineIndex ⟨event, data⟩).toList) := by
  rcases evtHandlerEvent_view h event data with ⟨-, hsame⟩ | ⟨-, hview⟩
  · rw [hsame]
    exact ⟨h, Or.inl rfl⟩
  · refine ⟨hview.pending_eq.symm ▸ hview, Or.inr ?_⟩
    rw [hview.lines_eq, List.filterMap_append, EventQueue.lines]
    cases hline : lineIndex ⟨event, data⟩ with
    | none => simp [hline]
    | some p => simp [hline]

theorem postLine_lines (h : QueueView q q.pending) {p : Nat} (hp : p < 65536) :
    QueueView (postLine q p) (postLine q p).pending ∧
    ((postLine q p).lines = q.lines ∨ (postLine q p).lines = q.lines ++ [p]) := by
  have hpost := evtHandlerEvent_lines h eventSerialRecv (UInt16.ofNat p)
  have hline : lineIndex ⟨eventSerialRecv, UInt16.ofNat p⟩ = some p := by
    simp [lineIndex, Nat.mod_eq_of_lt hp]
  rw [hline] at hpost
  exact hpost

end Lines

/-! ### One received byte -/

/-- `buffer_rx` adds the byte to the line instead of taking one off. -/
def UsbSerial.adds (s : UsbSerial) (b : UInt8) : Bool := ¬ (b = charBs ∧ s.rxIdx > 0)

/-- The byte ends the line: it is CR or LF, or the last one that fits. -/
def UsbSerial.ends (s : UsbSerial) (b : UInt8) : Bool :=
  isEol b || (s.adds b && s.rxIdx + 1 == usbSerialBufSz - 1)

/-- The state after the end of a line. -/
structure LineEnded (o : PostInc) (s s' : UsbSerial) : Prop where
  rxP : s'.rxP = wrap o s.rxP rxDepth
  rxIdx : s'.rxIdx = 0
  frame : ∀ p ≠ s.rxP, s'.rxQ p = s.rxQ p
  fits : (s'.rxQ s.rxP).len ≤ usbSerialBufSz
  sep : HasSep (s'.rxQ s.rxP)

section OneByte

variable {o : PostInc} {s s' : UsbSerial} {b : UInt8}

theorem editRx_of_adds (h : s.adds b = true) :
    s.editRx b = { s.storeRx b with rxIdx := (s.rxIdx + 1) % 256 } := by
  unfold UsbSerial.editRx
  rw [if_neg (of_decide_eq_true h)]

theorem editRx_of_not_adds (h : s.adds b = false) :
    s.editRx b = { s with rxIdx := s.rxIdx - 1 } := by
  unfold UsbSerial.editRx
  rw [if_pos (not_not.mp (of_decide_eq_false h))]

theorem editRx_frame {p : Nat} (hp : p ≠ s.rxP) : (s.editRx b).rxQ p = s.rxQ p := by
  cases h : s.adds b with
  | true =>
      rw [editRx_of_adds h]
      exact Function.update_of_ne hp _ _
  | false => rw [editRx_of_not_adds h]

theorem editRx_rxIdx (hidx : s.rxIdx < usbSerialBufSz - 1) :
    (s.editRx b).rxIdx = if s.adds b then s.rxIdx + 1 else s.rxIdx - 1 := by
  have hsz : usbSerialBufSz = 30 := rfl
  cases h : s.adds b with
  | true =>
      rw [editRx_of_adds h, if_pos rfl]
      exact Nat.mod_eq_of_lt (by omega)
  | false =>
      rw [editRx_of_not_adds h]
      rfl

/-- The code at `dispatch` ends the line of `s`, when it is reached in an edited state `s'`. -/
theorem bufferRxDispatch_ended (hrxP : s'.rxP = s.rxP) (hidx : s'.rxIdx < usbSerialBufSz)
    (hframe : ∀ p ≠ s.rxP, s'.rxQ p = s.rxQ p) : LineEnded o s (bufferRxDispatch o s').1 := by
  have hsz : usbSerialBufSz = 30 := rfl
  have hlen : (s'.rxIdx + 1) % 256 = s'.rxIdx + 1 := Nat.mod_eq_of_lt (by omega)
  constructor
  · exact congrArg (wrap o · rxDepth) hrxP
  · rfl
  · intro p hp
    rw [← hframe p hp]
    exact Function.update_of_ne (hrxP ▸ hp) _ _
  · rw [← hrxP]
    simp only [bufferRxDispatch, Function.update_self, hlen]
    omega
  · rw [← hrxP]
    refine ⟨s'.rxIdx, ?_, ?_⟩
    · simp only [bufferRxDispatch, Function.update_self, hlen]
      omega
    · simp [bufferRxDispatch, isSep]

/-- What one received byte does: it ends the line and posts it, or it edits the line. -/
theorem bufferRx_cases (o : PostInc) (b : UInt8) (hidx : s.rxIdx < usbSerialBufSz - 1) :
    (s.ends b = true ∧ LineEnded o s (bufferRx o s b).1 ∧ posts (bufferRx o s b).2 = [s.rxP]) ∨
    (s.ends b = false ∧ (bufferRx o s b).1 = s.editRx b ∧ posts (bufferRx o s b).2 = [] ∧
      (s.editRx b).rxIdx < usbSerialBufSz - 1) := by
  have hsz : usbSerialBufSz = 30 := rfl
  cases heol : isEol b with
  | true =>
      left
      rw [bufferRx_eol heol]
      exact ⟨by simp [UsbSerial.ends, heol],
        bufferRxDispatch_ended rfl (by omega) (fun _ _ => rfl), posts_bufferRxDispatch⟩
  | false =>
      have hedit := editRx_rxIdx (b := b) hidx
      by_cases hfull : (s.editRx b).rxIdx = usbSerialBufSz - 1
      · left
        obtain ⟨hstate, hposts⟩ := bufferRx_full (o := o) heol hfull
        have hadds : s.adds b = true ∧ s.rxIdx + 1 = usbSerialBufSz - 1 := by
          cases h : s.adds b with
          | true =>
              rw [h, if_pos rfl] at hedit
              exact ⟨rfl, hedit.symm.trans hfull⟩
          | false =>
              rw [h, if_neg (by simp)] at hedit
              omega
        refine ⟨by simp [UsbSerial.ends, hadds], ?_, hposts⟩
        rw [hstate]
        exact bufferRxDispatch_ended editRx_rxP (by omega) (fun p hp => editRx_frame hp)
      · right
        obtain ⟨hstate, hposts⟩ := bufferRx_edit (o := o) heol hfull
        refine ⟨?_, hstate, hposts, ?_⟩
        · rw [UsbSerial.ends, heol, Bool.false_or]
          cases h : s.adds b with
          | true =>
              rw [h, if_pos rfl] at hedit
              simpa [hedit] using hfull
          | false => rfl
        · have hle : (s.editRx b).rxIdx ≤ s.rxIdx + 1 := by
            rw [hedit]
            split <;> omega
          omega

end OneByte

/-! ### One step of the path -/

/-- Every state of a run: the queue is a ring, and the cursors are in the range of their types. -/
structure PathInv (s : SerialPath) : Prop where
  view : QueueView s.queue s.queue.pending
  idx : s.ser.rxIdx < usbSerialBufSz - 1
  rxP : s.ser.rxP < 256

/-- What a step does to the buffers and to the posted lines. -/
inductive Stepped (o : PostInc) (s s' : SerialPath) : PathAct → Prop where
  | ended {b : UInt8} (ends : s.ser.ends b = true) (ser : LineEnded o s.ser s'.ser)
      (lines : s'.queue.lines = s.queue.lines ∨ s'.queue.lines = s.queue.lines ++ [s.ser.rxP])
      (posted : s'.posted = s.posted ++ [s.ser.rxP]) : Stepped o s s' (.rx b)
  | edited {b : UInt8} (ends : s.ser.ends b = false) (ser : s'.ser = s.ser.editRx b)
      (lines : s'.queue.lines = s.queue.lines) (posted : s'.posted = s.posted) :
      Stepped o s s' (.rx b)
  | quiet {a : PathAct} (noRx : ∀ b, a ≠ .rx b) (ser : s'.ser = s.ser)
      (lines : s'.queue.lines = s.queue.lines) (posted : s'.posted = s.posted) : Stepped o s s' a
  | parsed {p : Nat} (lines : s.queue.lines = p :: s'.queue.lines)
      (ser : s'.ser =
        { s.ser with rxQ := Function.update s.ser.rxQ p (parsedStr (s.ser.rxQ p)) })
      (posted : s'.posted = s.posted) : Stepped o s s' .dispatch

section Step

variable {o : PostInc} {s s' : SerialPath} {a : PathAct} {out : List SerialOut}

theorem wrap_lt (o : PostInc) (i depth : Nat) (hi : i < 256) : wrap o i depth < 256 := by
  unfold wrap
  split
  · decide
  · cases o
    · exact hi
    · exact Nat.mod_lt _ (by decide)

theorem rx_stepped (b : UInt8) (h : PathInv s) (hstep : pathStep o s (.rx b) = some (s', out)) :
    PathInv s' ∧ Stepped o s s' (.rx b) := by
  simp only [pathStep, Option.some.injEq, Prod.mk.injEq] at hstep
  obtain ⟨rfl, -⟩ := hstep
  rcases bufferRx_cases o b h.idx with ⟨hends, hser, hposts⟩ | ⟨hends, hser, hposts, hidx⟩
  · obtain ⟨hview, hlines⟩ := postLine_lines h.view (Nat.lt_trans h.rxP (by decide))
    simp only [hposts, List.foldl_cons, List.foldl_nil]
    refine ⟨⟨hview, ?_, ?_⟩, .ended hends hser hlines rfl⟩
    · rw [hser.rxIdx]
      decide
    · rw [hser.rxP]
      exact wrap_lt o _ _ h.rxP
  · simp only [hposts, List.foldl_nil, List.append_nil, hser]
    refine ⟨⟨h.view, hidx, ?_⟩, .edited hends rfl rfl rfl⟩
    rw [editRx_rxP]
    exact h.rxP

theorem post_stepped (event : UInt8) (data : UInt16) (h : PathInv s)
    (hstep : pathStep o s (.post event data) = some (s', out)) :
    PathInv s' ∧ Stepped o s s' (.post event data) := by
  by_cases hline : event = eventSerialRecv
  · simp [pathStep, hline] at hstep
  · simp only [pathStep, if_neg hline, Option.some.injEq, Prod.mk.injEq] at hstep
    obtain ⟨rfl, -⟩ := hstep
    obtain ⟨hview, hlines⟩ := evtHandlerEvent_lines h.view event data
    have hnone : lineIndex ⟨event, data⟩ = none := if_neg hline
    rw [hnone, Option.toList_none, List.append_nil, or_self] at hlines
    exact ⟨⟨hview, h.idx, h.rxP⟩, .quiet (fun b hb => PathAct.noConfusion hb) rfl hlines rfl⟩

theorem dispatch_stepped (h : PathInv s) (hstep : pathStep o s .dispatch = some (s', out)) :
    PathInv s' ∧ Stepped o s s' .dispatch := by
  by_cases hempty : s.queue.qTail = s.queue.qHead
  · simp only [pathStep, if_pos hempty, Option.some.injEq, Prod.mk.injEq] at hstep
    obtain ⟨rfl, -⟩ := hstep
    exact ⟨h, .quiet (fun b hb => PathAct.noConfusion hb) rfl rfl rfl⟩
  · obtain ⟨e, rest, hpending⟩ := List.exists_cons_of_ne_nil (h.view.tail_ne_head_iff.mp hempty)
    have hview : QueueView s.queue (e :: rest) := hpending ▸ h.view
    have hrest := advance_view hview
    have hlines := hview.lines_eq
    simp only [pathStep, if_neg hempty, hview.oldest, Option.some.injEq, Prod.mk.injEq] at hstep
    obtain ⟨rfl, -⟩ := hstep
    have hview' : QueueView s.queue.advance s.queue.advance.pending :=
      hrest.pending_eq.symm ▸ hrest
    by_cases hline : e.event = eventSerialRecv
    · have hindex : lineIndex e = some e.data.toNat := if_pos hline
      rw [List.filterMap_cons_some hindex, ← hrest.lines_eq] at hlines
      rw [if_pos hline]
      exact ⟨⟨hview', h.idx, h.rxP⟩, .parsed hlines rfl rfl⟩
    · have hindex : lineIndex e = none := if_neg hline
      rw [List.filterMap_cons_none hindex, ← hrest.lines_eq] at hlines
      rw [if_neg hline]
      exact ⟨⟨hview', h.idx, h.rxP⟩,
        .quiet (fun b hb => PathAct.noConfusion hb) rfl hlines.symm rfl⟩

/-- Every step keeps the invariant and is one of the four kinds. -/
theorem pathStep_stepped (h : PathInv s) (hstep : pathStep o s a = some (s', out)) :
    PathInv s' ∧ Stepped o s s' a := by
  cases a with
  | rx b => exact rx_stepped b h hstep
  | post event data => exact post_stepped event data h hstep
  | dispatch => exact dispatch_stepped h hstep

theorem pathInv_init (mem : UsbSerial) : PathInv (pathInit mem) where
  view := QueueView.zero.pending_eq.symm ▸ QueueView.zero
  idx := (by decide : 0 < usbSerialBufSz - 1)
  rxP := (by decide : 0 < 256)

theorem lines_init (mem : UsbSerial) : (pathInit mem).queue.lines = [] :=
  QueueView.zero.lines_eq

end Step

/-! ### Rotation of the buffers -/

/-- What a step has to satisfy: `rx_p` is an index of `rx_q`, each line is posted in the buffer
    after that of the line before, and with a buffer to spare a received byte changes no posted line
    that is not parsed yet. -/
def RotateLaw (o : PostInc) (s : SerialPath) (a : PathAct) : Prop :=
  ∀ s' out, pathStep o s a = some (s', out) →
    s'.ser.rxP < rxDepth ∧ s'.posted.IsChain (fun p q => q = (p + 1) % rxDepth) ∧
    match a with
    | .rx _ =>
        s.queue.lines.length < rxDepth → ∀ p ∈ s.queue.lines, s'.ser.rxQ p = s.ser.rxQ p
    | _ => True

/-- Only the first line may end, and until it is parsed a byte that is added to its buffer may only
    be the one that is there. -/
def RotateOk (s : SerialPath) : PathAct → Prop
  | .rx b =>
      if s.ser.ends b then s.posted = []
      else s.ser.adds b → s.ser.rxP ∈ s.queue.lines →
        (s.ser.rxQ s.ser.rxP).data s.ser.rxIdx = b
  | _ => True

/-- The states in which at most one line has been posted. -/
structure RotateInv (o : PostInc) (s : SerialPath) : Prop extends PathInv s where
  phase :
    (s.posted = [] ∧ s.ser.rxP = 0 ∧ s.queue.lines = []) ∨
    (s.posted = [0] ∧ s.ser.rxP = wrap o 0 rxDepth ∧
      (s.queue.lines = [] ∨ s.queue.lines = [0]))

section Rotate

variable {o : PostInc} {s s' : SerialPath} {a : PathAct} {out : List SerialOut}

namespace RotateInv

theorem rxP_lt (h : RotateInv o s) : s.ser.rxP < rxDepth := by
  rcases h.phase with ⟨-, hrxP, -⟩ | ⟨-, hrxP, -⟩
  · rw [hrxP]
    decide
  · rw [hrxP]
    cases o <;> decide

theorem posted_chain (h : RotateInv o s) :
    s.posted.IsChain (fun p q => q = (p + 1) % rxDepth) := by
  rcases h.phase with ⟨hposted, -⟩ | ⟨hposted, -⟩ <;> simp [hposted]

theorem lines_lt (h : RotateInv o s) : s.queue.lines.length < rxDepth := by
  rcases h.phase with ⟨-, -, hlines⟩ | ⟨-, -, hlines | hlines⟩ <;> simp [hlines, rxDepth]

/-- Ending a line obeys the law just when it is the first one. -/
theorem ended_iff (h : RotateInv o s) (hser : LineEnded o s.ser s'.ser)
    (hposted : s'.posted = s.posted ++ [s.ser.rxP]) :
    (s'.ser.rxP < rxDepth ∧ s'.posted.IsChain (fun p q => q = (p + 1) % rxDepth) ∧
      (s.queue.lines.length < rxDepth → ∀ p ∈ s.queue.lines, s'.ser.rxQ p = s.ser.rxQ p)) ↔
    s.posted = [] := by
  rw [hser.rxP, hposted]
  rcases h.phase with ⟨hnone, hrxP, hlines⟩ | ⟨hone, hrxP, -⟩
  · rw [hnone, hrxP, hlines]
    refine iff_of_true ⟨?_, by simp, by simp⟩ rfl
    cases o <;> decide
  · rw [hone, hrxP]
    -- unchanged, the next line is posted in the same buffer; incremented, `rx_p` leaves the array
    apply iff_of_false
    · rintro ⟨hlt, hchain, -⟩
      cases o with
      | unchanged => simp [wrap, rxDepth] at hchain
      | incremented => exact absurd hlt (by decide)
    · simp

/-- A byte that does not end the line obeys the law just when it changes no posted line. -/
theorem edited_iff (h : RotateInv o s) {b : UInt8} (hser : s'.ser = s.ser.editRx b)
    (hposted : s'.posted = s.posted) :
    (s'.ser.rxP < rxDepth ∧ s'.posted.IsChain (fun p q => q = (p + 1) % rxDepth) ∧
      (s.queue.lines.length < rxDepth → ∀ p ∈ s.queue.lines, s'.ser.rxQ p = s.ser.rxQ p)) ↔
    (s.ser.adds b → s.ser.rxP ∈ s.queue.lines →
      (s.ser.rxQ s.ser.rxP).data s.ser.rxIdx = b) := by
  rw [hser, hposted, editRx_rxP]
  constructor
  · rintro ⟨-, -, hsame⟩ hadds hmem
    have hline := hsame h.lines_lt _ hmem
    rw [editRx_of_adds hadds] at hline
    have hbyte := congrArg (fun str : StringT => str.data s.ser.rxIdx) hline
    simpa [UsbSerial.storeRx] using hbyte.symm
  · intro hbyte
    refine ⟨h.rxP_lt, h.posted_chain, fun _ p hp => ?_⟩
    by_cases hcur : p = s.ser.rxP
    · subst hcur
      cases hadds : s.ser.adds b with
      | true =>
          rw [editRx_of_adds hadds, ← hbyte hadds hp]
          simp [UsbSerial.storeRx]
      | false => rw [editRx_of_not_adds hadds]
    · exact editRx_frame hcur

theorem law_iff (h : RotateInv o s) (a : PathAct) : RotateLaw o s a ↔ RotateOk s a := by
  have hquiet : ∀ s' out, (∀ b, a ≠ .rx b) → pathStep o s a = some (s', out) →
      s'.ser.rxP < rxDepth ∧ s'.posted.IsChain (fun p q => q = (p + 1) % rxDepth) := by
    intro s' out hno hstep
    obtain ⟨-, hkind⟩ := pathStep_stepped h.toPathInv hstep
    cases hkind with
    | ended => exact absurd rfl (hno _)
    | edited => exact absurd rfl (hno _)
    | quiet _ hser _ hposted =>
        rw [hser, hposted]
        exact ⟨h.rxP_lt, h.posted_chain⟩
    | parsed _ hser hposted =>
        rw [hser, hposted]
        exact ⟨h.rxP_lt, h.posted_chain⟩
  cases a with
  | rx b =>
      obtain ⟨s', out, hstep⟩ : ∃ s' out, pathStep o s (.rx b) = some (s', out) := ⟨_, _, rfl⟩
      have hlaw : RotateLaw o s (.rx b) ↔
          (s'.ser.rxP < rxDepth ∧ s'.posted.IsChain (fun p q => q = (p + 1) % rxDepth) ∧
            (s.queue.lines.length < rxDepth →
              ∀ p ∈ s.queue.lines, s'.ser.rxQ p = s.ser.rxQ p)) := by
        constructor
        · exact fun hlaw => hlaw s' out hstep
        · intro hlaw s₁ out₁ hstep₁
          obtain ⟨rfl, rfl⟩ := Prod.mk.inj (Option.some.inj (hstep.symm.trans hstep₁))
          exact hlaw
      rw [hlaw]
      obtain ⟨-, hkind⟩ := pathStep_stepped h.toPathInv hstep
      cases hkind with
      | ended hends hser _ hposted =>
          simp only [RotateOk, hends, if_true]
          exact h.ended_iff hser hposted
      | edited hends hser _ hposted =>
          simp only [RotateOk, hends, Bool.false_eq_true, if_false]
          exact h.edited_iff hser hposted
      | quiet hno => exact absurd rfl (hno b)
  | post event data =>
      refine iff_of_true (fun s' out hstep => ?_) trivial
      obtain ⟨hrxP, hchain⟩ := hquiet s' out (fun b hb => PathAct.noConfusion hb) hstep
      exact ⟨hrxP, hchain, trivial⟩
  | dispatch =>
      refine iff_of_true (fun s' out hstep => ?_) trivial
      obtain ⟨hrxP, hchain⟩ := hquiet s' out (fun b hb => PathAct.noConfusion hb) hstep
      exact ⟨hrxP, hchain, trivial⟩

theorem step (h : RotateInv o s) (hok : RotateOk s a) (hstep : pathStep o s a = some (s', out)) :
    RotateInv o s' := by
  obtain ⟨hinv, hkind⟩ := pathStep_stepped h.toPathInv hstep
  refine ⟨hinv, ?_⟩
  cases hkind with
  | ended hends hser hlines hposted =>
      -- it is the first line
      simp only [RotateOk, hends, if_true] at hok
      rcases h.phase with ⟨hnone, hrxP, hno⟩ | ⟨hone, -⟩
      · right
        rw [hposted, hser.rxP, hnone, hrxP]
        refine ⟨rfl, rfl, ?_⟩
        rwa [hno, hrxP] at hlines
      · exact absurd (hone.symm.trans hok) (by simp)
  | edited _ hser hlines hposted =>
      rw [hposted, hser, editRx_rxP, hlines]
      exact h.phase
  | quiet _ hser hlines hposted =>
      rw [hposted, hser, hlines]
      exact h.phase
  | parsed hlines hser hposted =>
      rcases h.phase with ⟨-, -, hno⟩ | ⟨hone, hrxP, hno | hsingle⟩
      · exact absurd (hlines.symm.trans hno) (by simp)
      · exact absurd (hlines.symm.trans hno) (by simp)
      · right
        rw [hposted, hser]
        have hrest := (List.cons.inj (hlines.symm.trans hsingle)).2
        exact ⟨hone, hrxP, Or.inl hrest⟩

end RotateInv

/-- For either outcome of `i = i++`, the steps of a run obey the law exactly if they meet the
    condition. -/
theorem rotate_law_iff (o : PostInc) (mem : UsbSerial) (acts : List PathAct) :
    Guarded (pathStep o) (RotateLaw o) (pathInit mem) acts ↔
      Guarded (pathStep o) RotateOk (pathInit mem) acts := by
  have hinit : RotateInv o (pathInit mem) :=
    ⟨pathInv_init mem, Or.inl ⟨rfl, rfl, lines_init mem⟩⟩
  exact guarded_iff (fun s a h => h.law_iff a) (fun s a s' out h hok hstep => h.step hok hstep)
    hinit

end Rotate

/-- A second empty line is posted in the buffer of the first, or it leaves `rx_p` outside `rx_q`. -/
theorem rotate_law_fails :
    ¬ Guarded (pathStep .unchanged) (RotateLaw .unchanged) (pathInit .zero)
        [.rx charCr, .rx charCr] ∧
      ¬ Guarded (pathStep .incremented) (RotateLaw .incremented) (pathInit .zero)
        [.rx charCr, .rx charCr] := by
  constructor
  · intro h
    obtain ⟨-, hchain, -⟩ := (h.2 _ _ rfl).1 _ _ rfl
    revert hchain
    simp [pathInit, usbSerialCtor, UsbSerial.zero, bufferRx, charCr, posts, bufferRxDispatch, wrap,
      rxDepth]
  · intro h
    obtain ⟨hlt, -, -⟩ := (h.2 _ _ rfl).1 _ _ rfl
    revert hlt
    simp [pathInit, usbSerialCtor, UsbSerial.zero, bufferRx, charCr, bufferRxDispatch, wrap,
      rxDepth]

/-! ### Tokens of a dispatched line -/

/-- What the dispatch of a posted line has to satisfy: the line is one of `rx_q`, and the tokens the
    parser takes from it, as it stands then, lie inside it. The token it releases is the command. -/
def ParseLaw (s : SerialPath) : PathAct → Prop
  | .dispatch =>
      s.queue.qTail ≠ s.queue.qHead → ∀ p, lineIndex (s.queue.eventQ s.queue.qTail) = some p →
        p < rxDepth ∧ SafeTokens (tokenize (s.ser.rxQ p))
  | _ => True

/-- Byte `b` written at index `i` leaves a separator in the recorded length of the line. -/
def KeepsSep (str : StringT) (i : Nat) (b : UInt8) : Prop :=
  (i < str.len ∧ isSep b = true) ∨ ∃ j < str.len, j ≠ i ∧ isSep (str.data j) = true

instance KeepsSep.decidable (str : StringT) (i : Nat) (b : UInt8) : Decidable (KeepsSep str i b) :=
  inferInstanceAs (Decidable (_ ∨ ∃ j < str.len, _))

/-- A byte arrives only while `rx_p` is an index of `rx_q`; one that is added to a posted line that
    is not parsed yet ends it, or leaves a separator in it. -/
def ParseOk (s : SerialPath) : PathAct → Prop
  | .rx b =>
      s.ser.rxP < rxDepth ∧
      (s.ser.ends b = false → s.ser.adds b = true → s.ser.rxP ∈ s.queue.lines →
        KeepsSep (s.ser.rxQ s.ser.rxP) s.ser.rxIdx b)
  | _ => True

instance ParseOk.decidable (s : SerialPath) : ∀ a, Decidable (ParseOk s a)
  | .rx _ => inferInstanceAs (Decidable (_ ∧ _))
  | .post _ _ => instDecidableTrue
  | .dispatch => instDecidableTrue

/-- The parser can take the line from its buffer. -/
structure Parsable (s : SerialPath) (p : Nat) : Prop where
  index : p < rxDepth
  fits : (s.ser.rxQ p).len ≤ usbSerialBufSz
  sep : HasSep (s.ser.rxQ p)

/-- The states in which every posted line that is not parsed yet can be parsed. -/
structure ParseInv (s : SerialPath) : Prop extends PathInv s where
  lines : ∀ p ∈ s.queue.lines, Parsable s p

section Parse

variable {o : PostInc} {s s' : SerialPath} {a : PathAct} {out : List SerialOut}

theorem parsedStr_len (str : StringT) : (parsedStr str).len = str.len := by
  cases hcmd : (tokenize str).token.cmd <;> simp [parsedStr, hcmd]

/-- A parse only turns bytes of the line into NUL. -/
theorem parsedStr_data (str : StringT) (i : Nat) :
    (parsedStr str).data i = (tokenize str).data i ∨ (parsedStr str).data i = 0 := by
  cases hcmd : (tokenize str).token.cmd with
  | none => simp [parsedStr, hcmd]
  | some p =>
      by_cases hip : i = p
      · subst hip
        simp [parsedStr, hcmd, releaseBuf]
      · simp [parsedStr, hcmd, releaseBuf, Function.update_of_ne hip]

theorem parsedStr_hasSep {str : StringT} (h : HasSep str) : HasSep (parsedStr str) := by
  obtain ⟨i, hi, hsep⟩ := h
  refine ⟨i, by rw [parsedStr_len]; exact hi, ?_⟩
  rcases parsedStr_data str i with hparsed | hnul
  · rw [hparsed]
    rcases tokenize_data str i with hsame | ⟨-, hnul⟩
    · rw [hsame]
      exact hsep
    · rw [hnul]
      rfl
  · rw [hnul]
    rfl

theorem Parsable.congr {p : Nat} (h : Parsable s p) (hline : s'.ser.rxQ p = s.ser.rxQ p) :
    Parsable s' p where
  index := h.index
  fits := hline ▸ h.fits
  sep := hline ▸ h.sep

namespace ParseInv

theorem law (h : ParseInv s) (a : PathAct) : ParseLaw s a := by
  cases a with
  | rx b => trivial
  | post event data => trivial
  | dispatch =>
      intro hne p hindex
      obtain ⟨e, rest, hpending⟩ := List.exists_cons_of_ne_nil (h.view.tail_ne_head_iff.mp hne)
      have hview : QueueView s.queue (e :: rest) := hpending ▸ h.view
      rw [hview.oldest] at hindex
      have hmem : p ∈ s.queue.lines := by
        rw [hview.lines_eq, List.filterMap_cons_some hindex]
        exact List.mem_cons_self
      have hline := h.lines _ hmem
      exact ⟨hline.index, (safeTokens_iff hline.fits).mpr hline.sep⟩

theorem step (h : ParseInv s) (hok : ParseOk s a) (hstep : pathStep o s a = some (s', out)) :
    ParseInv s' := by
  obtain ⟨hinv, hkind⟩ := pathStep_stepped h.toPathInv hstep
  refine ⟨hinv, fun p hp => ?_⟩
  cases hkind with
  | ended hends hser hlines hposted =>
      -- the line just ended is terminated, whatever was in its buffer
      by_cases hcur : p = s.ser.rxP
      · subst hcur
        exact ⟨hok.1, hser.fits, hser.sep⟩
      · have hold : p ∈ s.queue.lines := by
          rcases hlines with hsame | hmore
          · exact hsame ▸ hp
          · rw [hmore, List.mem_append, List.mem_singleton] at hp
            exact hp.resolve_right hcur
        exact (h.lines p hold).congr (hser.frame p hcur)
  | @edited b hends hser hlines hposted =>
      have hold : p ∈ s.queue.lines := hlines ▸ hp
      have hline := h.lines p hold
      by_cases hcur : p = s.ser.rxP
      · cases hadds : s.ser.adds b with
        | false =>
            apply hline.congr
            rw [hser, editRx_of_not_adds hadds]
        | true =>
            have hkeep := hok.2 hends hadds (hcur ▸ hold)
            have hwritten : s'.ser.rxQ p =
                { s.ser.rxQ p with
                  data := Function.update (s.ser.rxQ p).data s.ser.rxIdx b } := by
              rw [hser, editRx_of_adds hadds, hcur]
              exact Function.update_self _ _ _
            rw [← hcur] at hkeep
            refine ⟨hline.index, by rw [hwritten]; exact hline.fits, ?_⟩
            rw [hwritten]
            rcases hkeep with ⟨hlt, hb⟩ | ⟨j, hlt, hj, hsep⟩
            · exact ⟨s.ser.rxIdx, hlt, by simpa using hb⟩
            · exact ⟨j, hlt, by simpa [Function.update_of_ne hj] using hsep⟩
      · apply hline.congr
        rw [hser]
        exact editRx_frame hcur
  | quiet _ hser hlines _ =>
      apply (h.lines p (hlines ▸ hp)).congr
      rw [hser]
  | @parsed q hlines hser _ =>
      have hline := h.lines p (hlines ▸ List.mem_cons_of_mem q hp)
      by_cases hcur : p = q
      · subst hcur
        have hparsed : s'.ser.rxQ p = parsedStr (s.ser.rxQ p) := by
          rw [hser]
          exact Function.update_self _ _ _
        refine ⟨hline.index, ?_, ?_⟩
        · rw [hparsed, parsedStr_len]
          exact hline.fits
        · rw [hparsed]
          exact parsedStr_hasSep hline.sep
      · apply hline.congr
        rw [hser]
        exact Function.update_of_ne hcur _ _

end ParseInv

/-- For either outcome of `i = i++`, every dispatch of a run whose steps meet the condition finds
    the tokens inside the line. -/
theorem parse_law (o : PostInc) (mem : UsbSerial) (acts : List PathAct)
    (hok : Guarded (pathStep o) ParseOk (pathInit mem) acts) :
    Guarded (pathStep o) ParseLaw (pathInit mem) acts := by
  have hinit : ParseInv (pathInit mem) := by
    refine ⟨pathInv_init mem, fun p hp => ?_⟩
    rw [lines_init] at hp
    exact absurd hp List.not_mem_nil
  exact Guarded.imp (fun s a h _ => h.law a) (fun s a s' out h hok hstep => h.step hok hstep) hinit
    hok

/-- The next byte comes before the line is parsed and goes over its first character. The space
    behind it stays, and the parser finds its tokens. -/
theorem parse_law_byte_between :
    Guarded (pathStep .unchanged) ParseLaw (pathInit .zero)
      [.rx 97, .rx 32, .rx 98, .rx charCr, .rx 120, .dispatch] :=
  parse_law .unchanged .zero _ (by decide)

/-- A byte in the buffer of a posted empty line leaves the parser without a command: the next byte
    if `i = i++` leaves `i` alone, the first one behind three empty lines if it increments. -/
theorem parse_law_fails :
    ¬ Guarded (pathStep .unchanged) ParseLaw (pathInit .zero)
        [.rx charCr, .rx 120, .dispatch] ∧
      ¬ Guarded (pathStep .incremented) ParseLaw (pathInit .zero)
        [.rx charCr, .rx charCr, .rx charCr, .rx 120, .dispatch] := by
  constructor
  · intro h
    have hlaw := ((h.2 _ _ rfl).2 _ _ rfl).1
    have hcmd := (hlaw (by decide) 0 (by decide)).2.isSome_cmd
    revert hcmd
    decide
  · intro h
    have hlaw := ((((h.2 _ _ rfl).2 _ _ rfl).2 _ _ rfl).2 _ _ rfl).1
    have hcmd := (hlaw (by decide) 0 (by decide)).2.isSome_cmd
    revert hcmd
    decide

end Parse

end RfPirate
