/-
Module: RfPirate.Proofs.SerialTx
Layer: Proofs
Purpose: The transmit ring of `UsbSerial` against a queue of messages. Both cursors move by `++` and
  then by `WRAP`, so they visit every slot when `i = i++` leaves `i` alone and every second slot
  when it increments; `slots` and `stride` say which. A slot is free when its text is empty, so an
  accepted empty message is invisible to `process` and breaks the order of the ring.
Main exports: TxView, TxStepLaw, TxStepOk, tx_fifo, tx_fifo_fails
-/
import RfPirate.Core.UsbSerial
import RfPirate.Lib.Machine
import RfPirate.Lib.Ring

namespace RfPirate

open Lib Lib.CString Lib.Ring

/-! ### Runs of `printf` and `process` -/

/-- The text of a message that fits a slot. -/
def cut (text : CStr) : List UInt8 := text.bytes.take (usbSerialBufSz - 1)

/-- The object, with the history of accepted and sent messages. -/
structure TxRun where
  ser : UsbSerial
  accepted : List (List UInt8)
  sent : List (List UInt8)

inductive TxAct where
  | printf (text : CStr)
  | process (bank : List UInt8)

/-- The texts among the outputs. -/
def printed (out : List SerialOut) : List (List UInt8) :=
  out.filterMap fun
    | .print text => some text
    | _ => none

/-- One call of `printf` or `process`. `process` receives before it sends, so what it sends is what
    `processTx` prints after the receive loop. -/
def txStep (o : PostInc) : Machine.Step TxRun TxAct SerialOut
  | s, .printf text =>
      some ({ s with
          ser := printf o s.ser text
          accepted := if s.ser.txQ s.ser.txH 0 ≠ 0 then s.accepted else s.accepted ++ [cut text] },
        [])
  | s, .process bank =>
      let afterRx := (rxLoop o s.ser (received bank)).1
      some ({ s with
          ser := (process o s.ser bank).1
          sent := s.sent ++ printed (processTx o afterRx).2 },
        (process o s.ser bank).2)

def txInit (mem : UsbSerial) : TxRun :=
  { ser := usbSerialCtor mem, accepted := [], sent := [] }

/-- The accepted messages with any text in them. -/
def TxRun.nonEmpty (s : TxRun) : List (List UInt8) := s.accepted.filter (· ≠ [])

/-- What one step has to satisfy: the cursors stay in range, the messages sent so far are the first
    of the accepted ones, a `printf` is dropped only if no slot is free, and a `process` sends the
    oldest accepted non-empty message that is unsent. -/
def TxStepLaw (o : PostInc) (s : TxRun) (a : TxAct) : Prop :=
  ∀ s' out, txStep o s a = some (s', out) →
    s'.ser.txH < txDepth ∧ s'.ser.txT < txDepth ∧ s'.sent <+: s'.nonEmpty ∧
    match a with
    | .printf text =>
        s'.accepted = s.accepted ++ [cut text] ∨
        (s'.accepted = s.accepted ∧ s'.ser = s.ser ∧ ∀ i < txDepth, s.ser.txQ i 0 ≠ 0)
    | .process _ =>
        ∀ m rest, s.nonEmpty = s.sent ++ m :: rest → s'.sent = s.sent ++ [m]

/-! ### Slots the cursors visit -/

/-- How many slots a cursor visits before it is back at slot 0. -/
def slots : PostInc → Nat
  | .unchanged => txDepth
  | .incremented => (txDepth + 1) / 2

/-- How far apart the visited slots are. -/
def stride : PostInc → Nat
  | .unchanged => 1
  | .incremented => 2

theorem stride_mul_lt {o : PostInc} {k : Nat} (hk : k < slots o) : stride o * k < txDepth := by
  cases o <;> simp only [slots, stride, txDepth] at * <;> omega

theorem stride_mul_inj {o : PostInc} {j k : Nat} (h : stride o * j = stride o * k) : j = k := by
  cases o <;> simp only [stride] at h <;> omega

/-- `++` and then `WRAP` move a cursor to the next visited slot. -/
theorem wrap_stride {o : PostInc} {k : Nat} (hk : k < slots o) :
    wrap o ((stride o * k + 1) % 256) txDepth = stride o * Ring.next (slots o) k := by
  revert k
  cases o <;> decide

/-! ### The ring as a queue -/

/-- The text of the `k`-th visited slot. -/
def slotText (o : PostInc) (s : UsbSerial) (k : Nat) : List UInt8 :=
  cstr usbSerialBufSz (s.txQ (stride o * k))

/-- The transmit ring holds exactly the messages `unsent`, oldest first. -/
structure TxView (o : PostInc) (s : UsbSerial) (t : Nat) (unsent : List (List UInt8)) : Prop where
  ring : Occupancy (slots o) (· = []) (slotText o s) t unsent
  tail_eq : s.txT = stride o * t
  head_eq : s.txH = stride o * slot (slots o) t unsent.length

theorem slotText_eq_nil_iff {o : PostInc} {s : UsbSerial} {k : Nat} :
    slotText o s k = [] ↔ s.txQ (stride o * k) 0 = 0 := cstr_eq_nil_iff

/-- A write to a visited slot changes the text of that slot only. -/
theorem slotText_update (o : PostInc) (s : UsbSerial) (k : Nat) (f : Nat → UInt8) :
    slotText o { s with txQ := Function.update s.txQ (stride o * k) f } =
      Function.update (slotText o s) k (cstr usbSerialBufSz f) := by
  funext j
  by_cases hj : j = k
  · subst hj
    simp [slotText]
  · have hne : stride o * j ≠ stride o * k := fun h => hj (stride_mul_inj h)
    simp [slotText, Function.update_of_ne hne, Function.update_of_ne hj]

namespace TxView

variable {o : PostInc} {s : UsbSerial} {t : Nat} {unsent : List (List UInt8)}

theorem init (mem : UsbSerial) : TxView o (usbSerialCtor mem) 0 [] where
  ring :=
    { lt := by cases o <;> decide
      le := Nat.zero_le _
      contents := rfl
      used := by simp
      unused := by
        intro j _ hj
        have hlt : stride o * slot (slots o) 0 j < txDepth :=
          stride_mul_lt (slot_lt 0 j (by omega))
        rw [slotText_eq_nil_iff]
        simp [usbSerialCtor, hlt] }
  tail_eq := rfl
  head_eq := by simp [usbSerialCtor, slot]

theorem head_free_iff (h : TxView o s t unsent) :
    s.txQ s.txH 0 = 0 ↔ unsent.length < slots o := by
  rw [h.head_eq, ← slotText_eq_nil_iff]
  exact h.ring.free_head_iff

theorem tail_free_iff (h : TxView o s t unsent) : s.txQ s.txT 0 = 0 ↔ unsent = [] := by
  rw [h.tail_eq, ← slotText_eq_nil_iff]
  exact h.ring.free_tail_iff

theorem head_lt (h : TxView o s t unsent) : s.txH < txDepth := by
  rw [h.head_eq]
  exact stride_mul_lt (slot_lt _ _ (Nat.lt_of_le_of_lt (Nat.zero_le _) h.ring.lt))

theorem tail_lt (h : TxView o s t unsent) : s.txT < txDepth := by
  rw [h.tail_eq]
  exact stride_mul_lt h.ring.lt

/-- An accepted message with text in it becomes the newest unsent one. -/
theorem printf_accepted (h : TxView o s t unsent) (hroom : unsent.length < slots o) {text : CStr}
    (htext : text.bytes ≠ []) : TxView o (printf o s text) t (unsent ++ [cut text]) := by
  have hfree : s.txQ s.txH 0 = 0 := h.head_free_iff.mpr hroom
  have hcut : cut text ≠ [] := by
    simpa [cut, usbSerialBufSz] using htext
  have hpos : 0 < slots o := Nat.lt_of_le_of_lt (Nat.zero_le _) h.ring.lt
  have hstored :
      cstr usbSerialBufSz (storeStr usbSerialBufSz text.bytes (s.txQ s.txH)) = cut text :=
    cstr_storeStr _ (by decide) text.noNul
  have hring := h.ring.push hroom hcut
  rw [← hstored, ← slotText_update, ← h.head_eq] at hring
  have hprintf : printf o s text =
      { s with
        txQ := Function.update s.txQ s.txH (storeStr usbSerialBufSz text.bytes (s.txQ s.txH))
        txH := wrap o ((s.txH + 1) % 256) txDepth } := by
    simp [printf, hfree]
  rw [hprintf]
  refine ⟨?_, h.tail_eq, ?_⟩
  · rw [hstored] at hring
    exact hring
  · show wrap o ((s.txH + 1) % 256) txDepth = _
    rw [h.head_eq, wrap_stride (slot_lt _ _ hpos), next_slot _ _ hpos]
    simp

/-- A dropped message changes nothing. -/
theorem printf_dropped (h : TxView o s t unsent) (hfull : unsent.length = slots o) (text : CStr) :
    printf o s text = s := by
  have hused : ¬ s.txQ s.txH 0 = 0 := by
    rw [h.head_free_iff]
    omega
  simp [printf, hused]

/-- With a message unsent, `process` prints the oldest one and frees its slot. -/
theorem processTx_cons {m : List UInt8} {rest : List (List UInt8)}
    (h : TxView o s t (m :: rest)) :
    TxView o (processTx o s).1 (Ring.next (slots o) t) rest ∧ (processTx o s).2 = [.print m] := by
  have hused : s.txQ s.txT 0 ≠ 0 := by
    rw [Ne, h.tail_free_iff]
    simp
  have hm : cstr usbSerialBufSz (s.txQ s.txT) = m := by
    rw [h.tail_eq]
    exact h.ring.head_eq
  have hcleared : cstr usbSerialBufSz (Function.update (s.txQ s.txT) 0 0) = [] :=
    cstr_eq_nil_iff.mpr (by simp)
  have hring := h.ring.pop (y := []) rfl
  rw [← hcleared, ← slotText_update, ← h.tail_eq] at hring
  simp only [processTx, if_pos hused, hm, and_true]
  refine ⟨?_, ?_, ?_⟩
  · rw [hcleared] at hring
    exact hring
  · show wrap o ((s.txT + 1) % 256) txDepth = _
    rw [h.tail_eq, wrap_stride h.ring.lt]
  · show s.txH = _
    rw [slot_next h.ring.lt, h.head_eq]
    simp

theorem processTx_nil (h : TxView o s t []) : processTx o s = (s, []) := by
  have hfree : s.txQ s.txT 0 = 0 := h.tail_free_iff.mpr rfl
  simp [processTx, hfree]

end TxView

/-! ### Receiving leaves the transmit ring alone -/

theorem editRx_tx (s : UsbSerial) (b : UInt8) :
    (s.editRx b).txQ = s.txQ ∧ (s.editRx b).txH = s.txH ∧ (s.editRx b).txT = s.txT := by
  unfold UsbSerial.editRx
  split <;> exact ⟨rfl, rfl, rfl⟩

theorem bufferRx_tx (o : PostInc) (s : UsbSerial) (b : UInt8) :
    (bufferRx o s b).1.txQ = s.txQ ∧ (bufferRx o s b).1.txH = s.txH ∧
      (bufferRx o s b).1.txT = s.txT := by
  cases heol : isEol b with
  | true =>
      rw [bufferRx_eol heol]
      exact ⟨rfl, rfl, rfl⟩
  | false =>
      by_cases hfull : (s.editRx b).rxIdx = usbSerialBufSz - 1
      · rw [(bufferRx_full heol hfull).1]
        exact editRx_tx s b
      · rw [(bufferRx_edit heol hfull).1]
        exact editRx_tx s b

theorem rxLoop_tx (o : PostInc) (s : UsbSerial) (bs : List UInt8) :
    (rxLoop o s bs).1.txQ = s.txQ ∧ (rxLoop o s bs).1.txH = s.txH ∧
      (rxLoop o s bs).1.txT = s.txT := by
  induction bs generalizing s with
  | nil => exact ⟨rfl, rfl, rfl⟩
  | cons b bs ih =>
      obtain ⟨hq, hh, ht⟩ := ih (bufferRx o s b).1
      obtain ⟨hq', hh', ht'⟩ := bufferRx_tx o s b
      exact ⟨hq.trans hq', hh.trans hh', ht.trans ht'⟩

theorem TxView.rxLoop {o : PostInc} {s : UsbSerial} {t : Nat} {unsent : List (List UInt8)}
    (h : TxView o s t unsent) (bs : List UInt8) : TxView o (rxLoop o s bs).1 t unsent := by
  obtain ⟨hq, hh, ht⟩ := rxLoop_tx o s bs
  have htext : slotText o (RfPirate.rxLoop o s bs).1 = slotText o s := by
    funext k
    simp [slotText, hq]
  exact ⟨htext ▸ h.ring, ht.trans h.tail_eq, hh.trans h.head_eq⟩

/-! ### The law along runs -/

/-- When a step cannot go wrong: an accepted message has some text and, if `i = i++` increments, no
    `printf` is made while all the slots the cursors visit are in use. -/
def TxStepOk (o : PostInc) (s : TxRun) (a : TxAct) : Prop :=
  match a with
  | .printf text =>
      (s.ser.txQ s.ser.txH 0 = 0 → text.bytes ≠ []) ∧
      (o = .incremented → s.accepted.length < s.sent.length + (txDepth + 1) / 2)
  | .process _ => True

instance TxStepOk.decidable (o : PostInc) (s : TxRun) : ∀ a, Decidable (TxStepOk o s a)
  | .printf _ => inferInstanceAs (Decidable (_ ∧ _))
  | .process _ => instDecidableTrue

/-- The ring holds the accepted messages that are not sent, and none of them is empty. -/
structure TxInv (o : PostInc) (s : TxRun) : Prop where
  view : ∃ t unsent, TxView o s.ser t unsent ∧ s.accepted = s.sent ++ unsent
  texts : ∀ m ∈ s.accepted, m ≠ []

theorem TxInv.nonEmpty {o : PostInc} {s : TxRun} (h : TxInv o s) : s.nonEmpty = s.accepted := by
  apply List.filter_eq_self.mpr
  intro m hm
  simpa using h.texts m hm

theorem txInv_init (o : PostInc) (mem : UsbSerial) : TxInv o (txInit mem) :=
  ⟨⟨0, [], TxView.init mem, rfl⟩, by simp [txInit]⟩

theorem txInv_bounds {o : PostInc} {s : TxRun} (h : TxInv o s) :
    s.ser.txH < txDepth ∧ s.ser.txT < txDepth ∧ s.sent <+: s.nonEmpty := by
  obtain ⟨t, unsent, hview, hlist⟩ := h.view
  refine ⟨hview.head_lt, hview.tail_lt, ?_⟩
  rw [h.nonEmpty]
  exact ⟨unsent, hlist.symm⟩

/-- A `printf` that may be made either appends its text or finds every slot in use. -/
theorem txInv_printf {o : PostInc} {s s' : TxRun} {text : CStr} {out : List SerialOut}
    (h : TxInv o s) (hok : TxStepOk o s (.printf text))
    (hstep : txStep o s (.printf text) = some (s', out)) :
    TxInv o s' ∧ (s'.accepted = s.accepted ++ [cut text] ∨
      (s'.accepted = s.accepted ∧ s'.ser = s.ser ∧ ∀ i < txDepth, s.ser.txQ i 0 ≠ 0)) := by
  obtain ⟨t, unsent, hview, hlist⟩ := h.view
  simp only [txStep, Option.some.injEq, Prod.mk.injEq] at hstep
  obtain ⟨rfl, -⟩ := hstep
  rcases Nat.lt_or_eq_of_le hview.ring.le with hroom | hfull
  · have hfree : s.ser.txQ s.ser.txH 0 = 0 := hview.head_free_iff.mpr hroom
    have htext : text.bytes ≠ [] := hok.1 hfree
    have hcut : cut text ≠ [] := by simpa [cut, usbSerialBufSz] using htext
    refine ⟨⟨⟨t, unsent ++ [cut text], hview.printf_accepted hroom htext, ?_⟩, ?_⟩, Or.inl ?_⟩
    · simp [hfree, hlist]
    · intro m hm
      simp only [hfree, ne_eq, not_true_eq_false, if_false, List.mem_append,
        List.mem_singleton] at hm
      rcases hm with hold | rfl
      · exact h.texts m hold
      · exact hcut
    · simp [hfree]
  · have hused : s.ser.txQ s.ser.txH 0 ≠ 0 := by
      rw [Ne, hview.head_free_iff]
      omega
    have hsame : printf o s.ser text = s.ser := hview.printf_dropped hfull text
    refine ⟨⟨⟨t, unsent, ?_, ?_⟩, ?_⟩, Or.inr ⟨?_, hsame, ?_⟩⟩
    · simpa [hsame] using hview
    · simpa [hused] using hlist
    · simpa [hused] using h.texts
    · simp [hused]
    · cases o with
      | incremented =>
          -- here a full ring of visited slots is excluded: it is not a full array
          have hlen := hok.2 rfl
          rw [hlist, List.length_append, hfull] at hlen
          simp only [slots] at hlen
          omega
      | unchanged =>
          intro i hi
          have hslot := hview.ring.not_free_of_full hfull (i := i) hi
          rw [slotText_eq_nil_iff] at hslot
          simpa [stride] using hslot

/-- A `process` sends the oldest unsent message, if there is one. -/
theorem txInv_process {o : PostInc} {s s' : TxRun} {bank : List UInt8} {out : List SerialOut}
    (h : TxInv o s) (hstep : txStep o s (.process bank) = some (s', out)) :
    TxInv o s' ∧ ∀ m rest, s.nonEmpty = s.sent ++ m :: rest → s'.sent = s.sent ++ [m] := by
  obtain ⟨t, unsent, hview, hlist⟩ := h.view
  have hrx := hview.rxLoop (received bank)
  simp only [txStep, Option.some.injEq, Prod.mk.injEq] at hstep
  obtain ⟨rfl, -⟩ := hstep
  cases unsent with
  | nil =>
      have hnone := hrx.processTx_nil
      refine ⟨⟨⟨t, [], ?_, ?_⟩, h.texts⟩, ?_⟩
      · simpa [process, hnone] using hrx
      · simpa [hnone, printed] using hlist
      · intro m rest hm
        rw [h.nonEmpty, hlist] at hm
        simp at hm
  | cons m rest =>
      obtain ⟨hnext, hprint⟩ := hrx.processTx_cons
      refine ⟨⟨⟨Ring.next (slots o) t, rest, ?_, ?_⟩, h.texts⟩, ?_⟩
      · simpa [process] using hnext
      · simp [hprint, printed, hlist]
      · intro m' rest' hm
        rw [h.nonEmpty, hlist, List.append_cancel_left_eq] at hm
        obtain ⟨rfl, -⟩ := List.cons.inj hm
        simp [hprint, printed]

theorem txInv_step {o : PostInc} {s s' : TxRun} {a : TxAct} {out : List SerialOut} (h : TxInv o s)
    (hok : TxStepOk o s a) (hstep : txStep o s a = some (s', out)) : TxInv o s' := by
  cases a with
  | printf text => exact (txInv_printf h hok hstep).1
  | process bank => exact (txInv_process h hstep).1

theorem txStepLaw_of_inv {o : PostInc} {s : TxRun} {a : TxAct} (h : TxInv o s)
    (hok : TxStepOk o s a) : TxStepLaw o s a := by
  intro s' out hstep
  obtain ⟨hhead, htail, hprefix⟩ := txInv_bounds (txInv_step h hok hstep)
  refine ⟨hhead, htail, hprefix, ?_⟩
  cases a with
  | printf text => exact (txInv_printf h hok hstep).2
  | process bank => exact (txInv_process h hstep).2

/-- The transmit ring is a FIFO of messages in every run in which no accepted message is empty and,
    if `i = i++` increments, no `printf` is made while `(TX_DEPTH + 1) / 2` messages are unsent. -/
theorem tx_fifo (o : PostInc) (mem : UsbSerial) {acts : List TxAct}
    (hok : Machine.Guarded (txStep o) (TxStepOk o) (txInit mem) acts) :
    Machine.Guarded (txStep o) (TxStepLaw o) (txInit mem) acts := by
  refine Machine.Guarded.imp ?_ ?_ (txInv_init o mem) hok
  · intro s a h hok
    exact txStepLaw_of_inv h hok
  · intro s a s' out h hok hstep
    exact txInv_step h hok hstep

/-- Seven messages, the second of them longer than a slot. Both cursors go round the ring. -/
def sevenMessages : List TxAct :=
  [.printf (lit "a"), .printf ⟨List.replicate 30 98, by decide⟩, .process [], .printf (lit "c"),
    .process [], .printf (lit "d"), .process [], .printf (lit "e"), .process [],
    .printf (lit "f"), .printf (lit "g"), .process [], .process [], .process []]

/-- All of them go in and come out, whatever `i = i++` does. -/
theorem tx_fifo_seven_messages :
    Machine.Guarded (txStep .unchanged) (TxStepLaw .unchanged) (txInit .zero) sevenMessages ∧
      Machine.Guarded (txStep .incremented) (TxStepLaw .incremented) (txInit .zero)
        sevenMessages :=
  ⟨tx_fifo .unchanged .zero (by decide +kernel), tx_fifo .incremented .zero (by decide +kernel)⟩

/-- With an accepted empty message in front, `process` does not send the message behind it, whatever
    `i = i++` does. -/
theorem tx_fifo_fails :
    ¬ Machine.Guarded (txStep .unchanged) (TxStepLaw .unchanged) (txInit .zero)
        [.printf ⟨[], by decide⟩, .printf ⟨[97], by decide⟩, .process []] ∧
      ¬ Machine.Guarded (txStep .incremented) (TxStepLaw .incremented) (txInit .zero)
        [.printf ⟨[], by decide⟩, .printf ⟨[97], by decide⟩, .process []] := by
  constructor
  · intro h
    have hlaw := ((h.2 _ _ rfl).2 _ _ rfl).1 _ _ rfl
    have hsent := hlaw.2.2.2 [97] [] (by decide)
    revert hsent
    decide
  · intro h
    have hlaw := ((h.2 _ _ rfl).2 _ _ rfl).1 _ _ rfl
    have hsent := hlaw.2.2.2 [97] [] (by decide)
    revert hsent
    decide

end RfPirate
