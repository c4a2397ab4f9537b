/-
Module: RfPirate.Proofs.EvtQueue
Layer: Proofs
Purpose: The event queue is a bounded FIFO under every interleaving of interrupt posts with the
  steps of the dispatcher. `QueueView` ties the ring to the list of pending events; each operation
  has one lemma on that view, and the run theorem follows from a step lemma on the invariant.
Main exports: QueueView, evtHandlerEvent_view, advance_view, EventQueue.pending, eventQueue_fifo
-/
import RfPirate.Core.EvtHandler
import RfPirate.Lib.Ring

namespace RfPirate

open Lib Lib.Ring

/-! ### The queue as a list of pending events -/

/-- The ring holds exactly the events `pending`, oldest first. -/
structure QueueView (q : EventQueue) (pending : List EventT) : Prop where
  tail_lt : q.qTail < eventQSize
  room : pending.length < eventQSize
  head_eq : q.qHead = slot eventQSize q.qTail pending.length
  contents : window eventQSize q.eventQ q.qTail pending.length = pending

namespace QueueView

variable {q : EventQueue} {pending : List EventT}

theorem zero : QueueView .zero [] :=
  ⟨by decide, by decide, rfl, rfl⟩

theorem head_lt (h : QueueView q pending) : q.qHead < eventQSize := by
  rw [h.head_eq]
  exact slot_lt _ _ (by decide)

/-- The `while` test of the dispatcher sees whether anything is pending. -/
theorem tail_ne_head_iff (h : QueueView q pending) :
    q.qTail ≠ q.qHead ↔ pending ≠ [] := by
  have hmeet := slot_eq_self_iff h.tail_lt h.room
  rw [← h.head_eq, List.length_eq_zero_iff] at hmeet
  constructor
  · intro hne hnil
    exact hne (hmeet.mpr hnil).symm
  · intro hne heq
    exact hne (hmeet.mp heq.symm)

/-- The test of `evt_handler_event` sees whether `EVENT_Q_SIZE - 1` events are pending. -/
theorem full_iff (h : QueueView q pending) :
    q.full = true ↔ pending.length = eventQSize - 1 := by
  have hfull := next_slot_eq_self_iff h.tail_lt h.room
  rw [← h.head_eq] at hfull
  simpa [EventQueue.full, RfPirate.next, Ring.next] using hfull

theorem oldest {e : EventT} {rest : List EventT} (h : QueueView q (e :: rest)) :
    q.eventQ q.qTail = e := by
  have hcons := h.contents
  rw [List.length_cons, window_cons _ h.tail_lt] at hcons
  exact (List.cons.inj hcons).1

end QueueView

theorem next_lt_size {i : Nat} (hi : i < eventQSize) : next i % 256 = Ring.next eventQSize i := by
  have hlt : Ring.next eventQSize i < eventQSize := Ring.next_lt hi
  exact Nat.mod_eq_of_lt (Nat.lt_trans hlt (by decide))

/-- A post appends to the pending events, unless the queue is full and nothing changes. -/
theorem evtHandlerEvent_view {q : EventQueue} {pending : List EventT}
    (h : QueueView q pending) (event : UInt8) (data : UInt16) :
    (pending.length = eventQSize - 1 ∧ evtHandlerEvent q event data = q) ∨
    (pending.length < eventQSize - 1 ∧
      QueueView (evtHandlerEvent q event data) (pending ++ [⟨event, data⟩])) := by
  by_cases hfull : q.full = true
  · exact Or.inl ⟨h.full_iff.mp hfull, by simp [evtHandlerEvent, hfull]⟩
  · have hlen : pending.length < eventQSize - 1 := by
      have hne := mt h.full_iff.mpr hfull
      have hroom := h.room
      omega
    refine Or.inr ⟨hlen, ?_⟩
    have hroom : pending.length + 1 < eventQSize := by omega
    simp only [evtHandlerEvent, hfull, Bool.false_eq_true, if_false]
    rw [next_lt_size h.head_lt]
    exact
      { tail_lt := h.tail_lt
        room := by simpa using hroom
        head_eq := by
          rw [h.head_eq, Ring.next_slot _ _ (by decide)]
          simp
        contents := by
          simp only [List.length_append, List.length_singleton]
          rw [h.head_eq, window_push _ _ h.tail_lt h.room, h.contents] }

/-- The advance removes exactly the oldest pending event. -/
theorem advance_view {q : EventQueue} {e : EventT} {rest : List EventT}
    (h : QueueView q (e :: rest)) : QueueView q.advance rest := by
  have hcons := h.contents
  rw [List.length_cons, window_cons _ h.tail_lt] at hcons
  have hroom := h.room
  rw [List.length_cons] at hroom
  exact
    { tail_lt := by
        rw [EventQueue.advance, next_lt_size h.tail_lt]
        exact Ring.next_lt h.tail_lt
      room := by omega
      head_eq := by
        rw [EventQueue.advance, next_lt_size h.tail_lt, slot_next h.tail_lt]
        exact h.head_eq
      contents := by
        rw [EventQueue.advance, next_lt_size h.tail_lt]
        exact (List.cons.inj hcons).2 }

/-- The pending events as the cursors delimit them. -/
def EventQueue.pending (q : EventQueue) : List EventT :=
  window eventQSize q.eventQ q.qTail ((q.qHead + eventQSize - q.qTail) % eventQSize)

theorem QueueView.pending_eq {q : EventQueue} {pending : List EventT} (h : QueueView q pending) :
    q.pending = pending := by
  have hlen : (q.qHead + eventQSize - q.qTail) % eventQSize = pending.length := by
    have htail := h.tail_lt
    have hroom := h.room
    rw [h.head_eq]
    simp only [slot, eventQSize] at *
    omega
  rw [EventQueue.pending, hlen, h.contents]

/-! ### Runs -/

/-- The accepted posts of a trace, in order. -/
def accepted (o : List QueueObs) : List EventT :=
  o.filterMap fun
    | .accepted e => some e
    | _ => none

/-- The events removed by the dispatcher in a trace, in order. -/
def removed (o : List QueueObs) : List EventT :=
  o.filterMap fun
    | .removed e => some e
    | _ => none

/-- Every handler call of the trace gets the oldest event that is accepted and not removed at the
    time of the call. -/
def CallsSeeOldest (o : List QueueObs) : Prop :=
  ∀ pre cb e, pre ++ [.called cb e] <+: o → (accepted pre)[(removed pre).length]? = some e

/-- A trace grown by one observation keeps `CallsSeeOldest` if that observation does. -/
theorem CallsSeeOldest.concat {o : List QueueObs} {x : QueueObs} (h : CallsSeeOldest o)
    (hx : ∀ cb e, x = .called cb e → (accepted o)[(removed o).length]? = some e) :
    CallsSeeOldest (o ++ [x]) := by
  intro pre cb e hpre
  rcases List.prefix_concat_iff.mp hpre with heq | hold
  · obtain ⟨rfl, hcall⟩ := List.append_inj' heq rfl
    exact hx cb e (List.cons.inj hcall).1.symm
  · exact h pre cb e hold

/-- The invariant of the dispatcher: the ring holds the accepted events that are not removed, and
    while handlers run there is such an event. -/
structure DispatchInv (s : DispatchState) (o : List QueueObs) : Prop where
  view : ∃ pending, QueueView s.queue pending ∧ accepted o = removed o ++ pending ∧
    (s.pc ≠ .test → pending ≠ [])
  calls : CallsSeeOldest o

theorem dispatchInv_init (handlers : HandlerList) : DispatchInv (dispatchInit handlers) [] where
  view := ⟨[], QueueView.zero, rfl, fun h => absurd rfl h⟩
  calls := by
    intro pre cb e hpre
    simp at hpre

theorem dispatchInv_post {s : DispatchState} {o : List QueueObs} (h : DispatchInv s o)
    (event : UInt8) (data : UInt16) :
    DispatchInv { s with queue := evtHandlerEvent s.queue event data }
      (o ++ [if s.queue.full then .dropped ⟨event, data⟩ else .accepted ⟨event, data⟩]) := by
  obtain ⟨pending, hview, hlist, hpc⟩ := h.view
  rcases evtHandlerEvent_view hview event data with ⟨hlen, hsame⟩ | ⟨hlen, hnew⟩
  · have hfull := hview.full_iff.mpr hlen
    rw [hsame, if_pos hfull]
    exact
      { view := ⟨pending, hview, by simpa [accepted, removed] using hlist, hpc⟩
        calls := h.calls.concat (by intro cb e hx; cases hx) }
  · have hfull : ¬ s.queue.full = true := fun hf => by
      have := hview.full_iff.mp hf
      omega
    rw [if_neg hfull]
    exact
      { view := by
          refine ⟨pending ++ [⟨event, data⟩], hnew, ?_, fun _ => by simp⟩
          have hadd := congrArg (· ++ [EventT.mk event data]) hlist
          simpa [accepted, removed] using hadd
        calls := h.calls.concat (by intro cb e hx; cases hx) }

theorem dispatchInv_step {s : DispatchState} {o : List QueueObs} {i : DispatchAct}
    {s₁ : DispatchState} {o₁ : List QueueObs} (h : DispatchInv s o)
    (hstep : dispatchStep s i = some (s₁, o₁)) : DispatchInv s₁ (o ++ o₁) := by
  obtain ⟨pending, hview, hlist, hpc⟩ := h.view
  cases i with
  | post event data =>
      simp only [dispatchStep, Option.some.injEq, Prod.mk.injEq] at hstep
      obtain ⟨rfl, rfl⟩ := hstep
      exact dispatchInv_post h event data
  | step =>
      cases hs : s.pc with
      | test =>
          simp only [dispatchStep, hs] at hstep
          split at hstep
          · rename_i hne
            simp only [Option.some.injEq, Prod.mk.injEq] at hstep
            obtain ⟨rfl, rfl⟩ := hstep
            have hpending : pending ≠ [] := hview.tail_ne_head_iff.mp hne
            rw [List.append_nil]
            exact ⟨⟨pending, hview, hlist, fun _ => hpending⟩, h.calls⟩
          · simp only [Option.some.injEq, Prod.mk.injEq] at hstep
            obtain ⟨rfl, rfl⟩ := hstep
            simpa using h
      | handler tmp =>
          have hpending : pending ≠ [] := hpc (by simp [hs])
          cases tmp with
          | none =>
              simp only [dispatchStep, hs, Option.some.injEq, Prod.mk.injEq] at hstep
              obtain ⟨rfl, rfl⟩ := hstep
              rw [List.append_nil]
              exact ⟨⟨pending, hview, hlist, fun _ => hpending⟩, h.calls⟩
          | some n => simp [dispatchStep, hs] at hstep
      | advance =>
          simp only [dispatchStep, hs, Option.some.injEq, Prod.mk.injEq] at hstep
          obtain ⟨rfl, rfl⟩ := hstep
          cases pending with
          | nil => exact absurd rfl (hpc (by simp [hs]))
          | cons e rest =>
              exact
                { view := by
                    refine ⟨rest, advance_view hview, ?_, fun hne => absurd rfl hne⟩
                    simpa [accepted, removed, hview.oldest] using hlist
                  calls := h.calls.concat (by intro cb e' hx; cases hx) }
  | call rv handlers =>
      cases hs : s.pc with
      | test => simp [dispatchStep, hs] at hstep
      | advance => simp [dispatchStep, hs] at hstep
      | handler tmp =>
          have hpending : pending ≠ [] := hpc (by simp [hs])
          cases tmp with
          | none => simp [dispatchStep, hs] at hstep
          | some n =>
              cases hcb : (s.handlers.pool n).cb with
              | none => simp [dispatchStep, hs, hcb] at hstep
              | some cb =>
                  simp only [dispatchStep, hs, hcb, Option.some.injEq, Prod.mk.injEq] at hstep
                  obtain ⟨rfl, rfl⟩ := hstep
                  cases pending with
                  | nil => exact absurd rfl hpending
                  | cons e rest =>
                      refine
                        { view := ⟨e :: rest, hview, ?_, fun _ => hpending⟩
                          calls := h.calls.concat ?_ }
                      · simpa [accepted, removed] using hlist
                      · -- the call reads slot `q_tail`, which no post since has touched
                        intro cb' e' hx
                        cases hx
                        rw [hlist, hview.oldest]
                        simp

/-- Exactly-once, in-order delivery. For every interleaving of posts with dispatcher steps: the
    cursors stay in range; the removed events are a prefix of the accepted ones; a post is dropped,
    changing nothing, exactly when `EVENT_Q_SIZE - 1` accepted events are not removed yet; and every
    handler called for an event sees that event as it was accepted. -/
theorem eventQueue_fifo {handlers : HandlerList} {acts : List DispatchAct} {s : DispatchState}
    {o : List QueueObs}
    (hrun : Machine.run dispatchStep (dispatchInit handlers) acts = some (s, o)) :
    s.queue.qHead < eventQSize ∧ s.queue.qTail < eventQSize ∧
    removed o <+: accepted o ∧
    (∀ event data, dispatchStep s (.post event data) =
      if (accepted o).length = (removed o).length + (eventQSize - 1) then
        some (s, [.dropped ⟨event, data⟩])
      else
        some ({ s with queue := evtHandlerEvent s.queue event data }, [.accepted ⟨event, data⟩])) ∧
    CallsSeeOldest o := by
  have hinv : DispatchInv s o :=
    Machine.run_induction (fun _ _ _ _ _ h hstep => dispatchInv_step h hstep)
      (dispatchInv_init handlers) hrun
  obtain ⟨pending, hview, hlist, _⟩ := hinv.view
  have hlen : (accepted o).length = (removed o).length + pending.length := by
    rw [hlist, List.length_append]
  refine ⟨hview.head_lt, hview.tail_lt, ⟨pending, hlist.symm⟩, ?_, hinv.calls⟩
  intro event data
  by_cases hfull : s.queue.full = true
  · have hpending := hview.full_iff.mp hfull
    rw [if_pos (by omega)]
    simp [dispatchStep, evtHandlerEvent, hfull]
  · have hpending : pending.length ≠ eventQSize - 1 := mt hview.full_iff.mpr hfull
    rw [if_neg (by omega)]
    simp [dispatchStep, hfull]

/-- One handler at code address 7, and five posts of which the fifth meets a full queue. -/
theorem eventQueue_fifo_five_posts :
    ∃ s o, Machine.run dispatchStep (dispatchInit (evtHandlerAddhandler .zero (some 7)))
        [.post 16 0, .post 16 1, .step, .call 1 .zero, .post 16 2, .post 16 3, .post 16 4, .step] =
          some (s, o) ∧ removed o <+: accepted o := by
  have hsome : (Machine.run dispatchStep (dispatchInit (evtHandlerAddhandler .zero (some 7)))
      [.post 16 0, .post 16 1, .step, .call 1 .zero, .post 16 2, .post 16 3, .post 16 4,
        .step]).isSome = true := by decide
  obtain ⟨⟨s, o⟩, hrun⟩ := Option.isSome_iff_exists.mp hsome
  exact ⟨s, o, hrun, (eventQueue_fifo hrun).2.2.1⟩

end RfPirate
