/-
Module: RfPirate.Core.EvtHandler
Layer: Core
Purpose: `evt_handler.cpp`: the event queue, the pool of handler nodes with its linked list, and the
  two traversals that offer an event to the handlers. Pointers into the static pool are indices of
  it. `evt_handler_dispatch` is given as a machine of its single steps, because interrupts post
  between them.
Main exports: EventQueue, evtHandlerEvent, HandlerList, evtHandlerInit, evtHandlerAddhandler,
  evtHandlerPophandler, HandlerOp, evtHandlerSyncevent, dispatchStep
-/
import RfPirate.Core.System
import RfPirate.Lib.Machine
import Mathlib.Logic.Function.Basic
import Mathlib.Data.Fintype.Basic

namespace RfPirate

open Lib

/-! ### Event queue -/

/-- `struct event_t`. -/
structure EventT where
  event : UInt8
  data : UInt16
deriving DecidableEq, Repr

/-- Buffer size for system events (`EVENT_Q_SIZE`). -/
def eventQSize : Nat := 5

/-- `event_q` with its two cursors. -/
structure EventQueue where
  eventQ : Nat → EventT
  qHead : Nat
  qTail : Nat

/-- The queue in static storage before `main`. -/
def EventQueue.zero : EventQueue :=
  { eventQ := fun _ => ⟨0, 0⟩, qHead := 0, qTail := 0 }

/-- The `NEXT` macro. -/
def next (x : Nat) : Nat := if x = eventQSize - 1 then 0 else x + 1

/-- The test of `evt_handler_event` that makes it return without storing. -/
def EventQueue.full (q : EventQueue) : Bool := next q.qHead == q.qTail

/-- `evt_handler_event`. The cursor is a `uint8_t`. -/
def evtHandlerEvent (q : EventQueue) (event : UInt8) (data : UInt16) : EventQueue :=
  if q.full then q
  else
    { q with
      eventQ := Function.update q.eventQ q.qHead ⟨event, data⟩
      qHead := next q.qHead % 256 }

/-- The advance at the end of the `while` body of `evt_handler_dispatch`. -/
def EventQueue.advance (q : EventQueue) : EventQueue :=
  { q with qTail := next q.qTail % 256 }

/-! ### Handler list -/

/-- Size of the node pool (`MAX_HANDLERS`). -/
def maxHandlers : Nat := 3

/-- A non-NULL `struct handler_node *`: all of them point into the static pool. -/
abbrev NodePtr := Fin maxHandlers

/-- `struct handler_node`. -/
structure HandlerNode where
  cb : Option EventNotifyCb
  next : Option NodePtr
deriving DecidableEq, Repr

/-- The static pool and the head of the linked list of handlers. -/
structure HandlerList where
  pool : NodePtr → HandlerNode
  head : Option NodePtr
deriving DecidableEq

/-- Pool and head in zeroed static storage. -/
def HandlerList.zero : HandlerList :=
  { pool := fun _ => ⟨none, none⟩, head := none }

/-- `evt_handler_init`. -/
def evtHandlerInit (_ : HandlerList) : HandlerList :=
  { pool := fun _ => ⟨none, none⟩, head := none }

/-- `get_node`: the first pool node whose `cb` is NULL. -/
def getNode (h : HandlerList) : Option NodePtr :=
  (List.finRange maxHandlers).find? fun i => (h.pool i).cb.isNone

/-- `evt_handler_addhandler`. -/
def evtHandlerAddhandler (h : HandlerList) : Option EventNotifyCb → HandlerList
  | none => h
  | some cb =>
      match getNode h with
      | none => h
      | some n => { pool := Function.update h.pool n ⟨some cb, h.head⟩, head := some n }

/-- `evt_handler_pophandler`. The popped node keeps its `next`. -/
def evtHandlerPophandler (h : HandlerList) : HandlerList :=
  match h.head with
  | none => h
  | some n =>
      { pool := Function.update h.pool n { h.pool n with cb := none }
        head := (h.pool n).next }

/-- A call that changes the handler list. -/
inductive HandlerOp where
  | init
  | add (cb : Option EventNotifyCb)
  | pop
deriving DecidableEq, Repr

/-- The handler list after a call. -/
def HandlerOp.apply : HandlerOp → HandlerList → HandlerList
  | .init, h => evtHandlerInit h
  | .add cb, h => evtHandlerAddhandler h cb
  | .pop, h => evtHandlerPophandler h

/-! ### Synchronous traversal -/

section Syncevent

/-- One callback invocation made by a traversal. -/
structure Offer where
  cb : EventNotifyCb
  event : UInt8
  data : UInt16
deriving DecidableEq, Repr

/-- The program around the traversal: its state, where the handler list is in it, and what the
    function at a code address does. -/
structure Callbacks (W : Type*) where
  handlers : W → HandlerList
  call : EventNotifyCb → UInt8 → UInt16 → W → UInt8 × W

variable {W : Type*} (env : Callbacks W) (event : UInt8) (data : UInt16)

/-- The `for` loop of `evt_handler_syncevent` from `tmp` on. `tmp->next` is read after the call, in
    the list as the callback left it. `none` when a NULL `cb` is called or the fuel runs out. -/
def syncLoop : Nat → Option NodePtr → W → Option (W × List Offer)
  | _, none, w => some (w, [])
  | 0, some _, _ => none
  | fuel + 1, some n, w =>
      match ((env.handlers w).pool n).cb with
      | none => none
      | some cb =>
          let r := env.call cb event data w
          if r.1 ≠ 0 then some (r.2, [⟨cb, event, data⟩])
          else
            match syncLoop fuel ((env.handlers r.2).pool n).next r.2 with
            | none => none
            | some (w', offers) => some (w', ⟨cb, event, data⟩ :: offers)

/-- `evt_handler_syncevent`. -/
def evtHandlerSyncevent (fuel : Nat) (w : W) : Option (W × List Offer) :=
  syncLoop env event data fuel (env.handlers w).head w

end Syncevent

/-! ### Queued dispatch, one step at a time -/

/-- Where `evt_handler_dispatch` stands: at the `while` test, at the `for` test with its `tmp`, or
    at the advance of `q_tail`. -/
inductive DispatchPc where
  | test
  | handler (tmp : Option NodePtr)
  | advance
deriving DecidableEq, Repr

/-- Queue, handler list and the position of the dispatcher. -/
structure DispatchState where
  queue : EventQueue
  handlers : HandlerList
  pc : DispatchPc

/-- Labels: a post from an interrupt, a step of the dispatcher that calls nobody, and a handler call
    with the value it returns and the handler list it leaves behind. -/
inductive DispatchAct where
  | post (event : UInt8) (data : UInt16)
  | step
  | call (rv : UInt8) (handlers : HandlerList)

/-- What an observer of the queue sees. -/
inductive QueueObs where
  | accepted (e : EventT)
  | dropped (e : EventT)
  | called (cb : EventNotifyCb) (e : EventT)
  | removed (e : EventT)
deriving DecidableEq, Repr

/-- The single steps of `evt_handler_dispatch`, with posts between them. `main` calls it again when
    it returns, so the failed `while` test leaves the dispatcher at that test. -/
def dispatchStep : Machine.Step DispatchState DispatchAct QueueObs
  | s, .post event data =>
      some ({ s with queue := evtHandlerEvent s.queue event data },
        [if s.queue.full then .dropped ⟨event, data⟩ else .accepted ⟨event, data⟩])
  | s, .step =>
      match s.pc with
      | .test =>
          if s.queue.qTail ≠ s.queue.qHead then
            some ({ s with pc := .handler s.handlers.head }, [])
          else some (s, [])
      | .handler none => some ({ s with pc := .advance }, [])
      | .handler (some _) => none
      | .advance =>
          some ({ s with queue := s.queue.advance, pc := .test },
            [.removed (s.queue.eventQ s.queue.qTail)])
  | s, .call rv handlers =>
      match s.pc with
      | .handler (some n) =>
          match (s.handlers.pool n).cb with
          | none => none
          | some cb =>
              some ({ s with
                  handlers := handlers
                  pc := if rv ≠ 0 then .advance else .handler (handlers.pool n).next },
                [.called cb (s.queue.eventQ s.queue.qTail)])
      | _ => none

/-- The dispatcher before its first step, with any handlers registered. -/
def dispatchInit (handlers : HandlerList) : DispatchState :=
  { queue := .zero, handlers := handlers, pc := .test }

end RfPirate
