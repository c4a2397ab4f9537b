/-
Module: RfPirate.Core.Delivery
Layer: Core
Purpose: `evt_handler_syncevent` and `evt_handler_dispatch` around callbacks that change the handler
  list. A callback runs call by call: it may add and pop handlers, post, and start a traversal
  inside the one that called it. A traversal therefore is a frame of a stack, and one step of the
  machine is one step of the innermost loop or one call made by the code that runs.
Main exports: depth, Traversal, DeliveryState, DeliveryAct, deliveryStep, Shallow, DeliveryLaw
-/
import RfPirate.Core.EvtHandler

namespace RfPirate

open Lib

/-! ### Depth in the handler list -/

/-- Nodes met from `p` on, at most `fuel` of them. -/
def depthFrom (h : HandlerList) : Nat → Option NodePtr → Nat
  | _, none => 0
  | 0, some _ => 0
  | fuel + 1, some n => depthFrom h fuel (h.pool n).next + 1

/-- Stack depth of a node: how many handlers there are from it down to the end of the list. -/
def depth (h : HandlerList) (p : Option NodePtr) : Nat := depthFrom h maxHandlers p

/-- Number of registered handlers. -/
def HandlerList.len (h : HandlerList) : Nat := depth h h.head

/-! ### Traversals -/

/-- The function whose `for` loop a traversal is. -/
inductive Caller where
  | syncevent (event : UInt8) (data : UInt16)
  | dispatch
deriving DecidableEq, Repr

/-- A traversal on the call stack. The program has `caller`, `tmp` and whether the callback of `tmp`
    is running; the other fields are its history. -/
structure Traversal where
  caller : Caller
  tmp : Option NodePtr
  running : Bool
  /-- Handlers registered when the traversal began. -/
  begun : Nat
  /-- Handlers pushed before it began. -/
  since : Nat
  /-- Handlers registered when it called the running callback. -/
  startLen : Nat
  /-- Depths of the handlers it called, the last one first. -/
  calls : List Nat
deriving DecidableEq, Repr

/-- Queue, handler list, and the traversals that have not ended, the innermost first. `clock` counts
    the handlers pushed so far and `stamp` says when each node was last pushed. -/
structure DeliveryState where
  queue : EventQueue
  handlers : HandlerList
  dispatching : Bool
  frames : List Traversal
  clock : Nat
  stamp : NodePtr → Nat

/-- Static storage before `main`. -/
def DeliveryState.zero : DeliveryState :=
  { queue := .zero, handlers := .zero, dispatching := false, frames := [], clock := 0,
    stamp := fun _ => 0 }

/-- Main runs, outside of the two functions. -/
def DeliveryState.inMain (s : DeliveryState) : Bool := s.frames.isEmpty && !s.dispatching

/-- Main or a callback runs, so that any function may be called. -/
def DeliveryState.open (s : DeliveryState) : Bool :=
  match s.frames with
  | [] => !s.dispatching
  | t :: _ => t.running

/-- The start of a `for` loop. -/
def DeliveryState.enter (s : DeliveryState) (caller : Caller) : DeliveryState :=
  { s with
    frames :=
      { caller := caller, tmp := s.handlers.head, running := false, begun := s.handlers.len,
        since := s.clock, startLen := 0, calls := [] } :: s.frames }

/-- The end of a `for` loop; `evt_handler_dispatch` then removes the event. -/
def DeliveryState.leave (s : DeliveryState) (caller : Caller) (rest : List Traversal) :
    DeliveryState :=
  match caller with
  | .syncevent _ _ => { s with frames := rest }
  | .dispatch => { s with frames := rest, queue := s.queue.advance }

/-- `evt_handler_addhandler`, with the history of pushes. -/
def DeliveryState.add (s : DeliveryState) (cb : Option EventNotifyCb) : DeliveryState :=
  match cb, getNode s.handlers with
  | some _, some n =>
      { s with
        handlers := evtHandlerAddhandler s.handlers cb
        clock := s.clock + 1
        stamp := Function.update s.stamp n s.clock }
  | _, _ => { s with handlers := evtHandlerAddhandler s.handlers cb }

/-- The event a traversal offers. -/
def DeliveryState.offered (s : DeliveryState) : Caller → EventT
  | .syncevent event data => ⟨event, data⟩
  | .dispatch => s.queue.eventQ s.queue.qTail

/-! ### Steps -/

/-- Labels: the calls main and the callbacks make, a post (which an interrupt may make too), a step
    of the innermost loop, and the return of the running callback. -/
inductive DeliveryAct where
  | init
  | add (cb : Option EventNotifyCb)
  | pop
  | post (event : UInt8) (data : UInt16)
  | syncevent (event : UInt8) (data : UInt16)
  | dispatch
  | step
  | ret (rv : UInt8)
deriving DecidableEq, Repr

/-- The loop of the innermost traversal, or the `while` test of `evt_handler_dispatch`. There is no
    step when a NULL `cb` would be called. -/
def loopStep (s : DeliveryState) : Option (DeliveryState × List Offer) :=
  match s.frames with
  | [] =>
      if s.dispatching then
        if s.queue.qTail ≠ s.queue.qHead then some (s.enter .dispatch, [])
        else some ({ s with dispatching := false }, [])
      else none
  | t :: rest =>
      if t.running then none
      else
        match t.tmp with
        | none => some (s.leave t.caller rest, [])
        | some n =>
            match (s.handlers.pool n).cb with
            | none => none
            | some cb =>
                some ({ s with
                    frames :=
                      { t with
                        running := true
                        startLen := s.handlers.len
                        calls := depth s.handlers (some n) :: t.calls } :: rest },
                  [⟨cb, (s.offered t.caller).event, (s.offered t.caller).data⟩])

/-- The callback returns. `tmp->next` is read in the list as the callback left it. -/
def returnStep (s : DeliveryState) (rv : UInt8) : Option (DeliveryState × List Offer) :=
  match s.frames with
  | [] => none
  | t :: rest =>
      if t.running then
        match t.tmp with
        | none => none
        | some n =>
            if rv ≠ 0 then some (s.leave t.caller rest, [])
            else
              some ({ s with
                  frames :=
                    { t with tmp := (s.handlers.pool n).next, running := false } :: rest }, [])
      else none

/-- The two traversals with every behaviour of main, the interrupts and the callbacks. -/
def deliveryStep : Machine.Step DeliveryState DeliveryAct Offer
  | s, .init =>
      if s.inMain then some ({ s with handlers := evtHandlerInit s.handlers }, []) else none
  | s, .add cb => if s.open then some (s.add cb, []) else none
  | s, .pop =>
      if s.open then some ({ s with handlers := evtHandlerPophandler s.handlers }, []) else none
  | s, .post event data => some ({ s with queue := evtHandlerEvent s.queue event data }, [])
  | s, .syncevent event data =>
      if s.open then some (s.enter (.syncevent event data), []) else none
  | s, .dispatch => if s.inMain then some ({ s with dispatching := true }, []) else none
  | s, .step => loopStep s
  | s, .ret rv => returnStep s rv

/-! ### What is asked of the callbacks, and what is promised -/

/-- The list is at most one entry shorter than at the start of each invocation that has not
    returned. -/
def Shallow (s : DeliveryState) : Prop :=
  ∀ t ∈ s.frames, t.running = true → t.startLen ≤ s.handlers.len + 1
deriving Decidable

/-- The step leaves the list as deep as the invocations ask. -/
abbrev KeepsShallow : DeliveryState → DeliveryAct → Prop := Machine.After deliveryStep Shallow

/-- A handler a traversal is about to call has a callback, lies deeper than every handler it called
    before, is one of at most as many as were registered when it began, and was pushed before. -/
def DeliveryLaw (s : DeliveryState) (act : DeliveryAct) : Prop :=
  act = .step → ∀ t rest n, s.frames = t :: rest → t.running = false → t.tmp = some n →
    (s.handlers.pool n).cb ≠ none ∧
    (∀ d ∈ t.calls, depth s.handlers (some n) < d) ∧
    t.calls.length < t.begun ∧
    s.stamp n < t.since

end RfPirate
