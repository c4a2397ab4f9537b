/-
Module: RfPirate.Core.Timetick
Layer: Core
Purpose: `timetick.cpp`: the table of clients, the operations on it, and the timer interrupt that
  calls the clients that are due. Main makes the assignments of an operation one at a time, with
  interrupts between them; a callback inside the interrupt makes them without one.
Main exports: ClientT, findClient, timetickRegister, timetickDeregister, Timetick, timetickInit,
  TimetickAct, timetickStep
-/
import RfPirate.Lib.Machine
import Mathlib.Logic.Function.Basic
import Mathlib.Data.Fintype.Basic

namespace RfPirate

open Lib

/-! ### Clients -/

/-- How many clients can register (`CLIENT_CNT`). -/
def clientCnt : Nat := 5

/-- A non-NULL `struct client_t *`: all of them point into the static table. -/
abbrev ClientPtr := Fin clientCnt

/-- Address of a `timetick_cb_t` function. -/
abbrev TimetickCb := Nat

/-- `struct client_t`. -/
structure ClientT where
  ticks : UInt16
  cb : Option TimetickCb
deriving DecidableEq, Repr

/-- The table `client`. -/
abbrev ClientTable := ClientPtr → ClientT

def ClientTable.setCb (client : ClientTable) (c : ClientPtr) (cb : Option TimetickCb) :
    ClientTable :=
  Function.update client c { client c with cb := cb }

def ClientTable.setTicks (client : ClientTable) (c : ClientPtr) (ticks : UInt16) : ClientTable :=
  Function.update client c { client c with ticks := ticks }

/-- `find_client`. -/
def findClient (client : ClientTable) (cb : Option TimetickCb) : Option ClientPtr :=
  (List.finRange clientCnt).find? fun i => (client i).cb == cb

/-- `timetick_register`. -/
def timetickRegister (client : ClientTable) (cb : Option TimetickCb) (ticks : UInt16) :
    ClientTable :=
  match findClient client none with
  | none => client
  | some c => (client.setCb c cb).setTicks c ticks

/-- `timetick_deregister`. -/
def timetickDeregister (client : ClientTable) (cb : Option TimetickCb) : ClientTable :=
  match findClient client cb with
  | none => client
  | some c => (client.setCb c none).setTicks c 0

/-! ### The machine -/

/-- Where main stands in an operation: the assignment it makes next. -/
inductive MainPc where
  | idle
  | registerCb (c : ClientPtr) (cb : Option TimetickCb) (ticks : UInt16)
  | registerTicks (c : ClientPtr) (ticks : UInt16)
  | deregisterCb (c : ClientPtr)
  | deregisterTicks (c : ClientPtr)
deriving DecidableEq, Repr

/-- Where the interrupt stands: at the `for` test with its `i`, or in the callback of client `i`. -/
inductive IsrPc where
  | loop (i : Nat)
  | callback (i : Nat)
deriving DecidableEq, Repr

/-- The private variables, main's position, and the interrupt's while one is served. -/
structure Timetick where
  count : UInt16
  client : ClientTable
  main : MainPc
  isr : Option IsrPc

/-- After `timetick_init`, which enables interrupts last. -/
def timetickInit : Timetick :=
  { count := 0, client := fun _ => ⟨0, none⟩, main := .idle, isr := none }

/-- Labels: the calls main makes and each of its assignments; the timer interrupt, an iteration of
    its loop, and what a callback does to the table before it returns. -/
inductive TimetickAct where
  | register (cb : Option TimetickCb) (ticks : UInt16)
  | deregister (cb : Option TimetickCb)
  | assign
  | interrupt
  | loop
  | callbackRegister (cb : Option TimetickCb) (ticks : UInt16)
  | callbackDeregister (cb : Option TimetickCb)
  | ret
deriving DecidableEq, Repr

/-- What an observer of the clients sees. -/
inductive TimetickObs where
  | called (i : ClientPtr) (cb : TimetickCb) (count : UInt16)
  | tick
deriving DecidableEq, Repr

/-- Main calls `timetick_register`. -/
def registerCall (s : Timetick) (cb : Option TimetickCb) (ticks : UInt16) : Timetick :=
  match findClient s.client none with
  | none => s
  | some c => { s with main := .registerCb c cb ticks }

/-- Main calls `timetick_deregister`. -/
def deregisterCall (s : Timetick) (cb : Option TimetickCb) : Timetick :=
  match findClient s.client cb with
  | none => s
  | some c => { s with main := .deregisterCb c }

/-- The next assignment of main's operation. -/
def assignStep (s : Timetick) : Option Timetick :=
  match s.main with
  | .idle => none
  | .registerCb c cb ticks =>
      some { s with client := s.client.setCb c cb, main := .registerTicks c ticks }
  | .registerTicks c ticks => some { s with client := s.client.setTicks c ticks, main := .idle }
  | .deregisterCb c => some { s with client := s.client.setCb c none, main := .deregisterTicks c }
  | .deregisterTicks c => some { s with client := s.client.setTicks c 0, main := .idle }

/-- An iteration of the loop of `ISR(TIMER0_COMPA_vect)`, or the increment after it. A modulo by
    zero has no step. -/
def isrStep (s : Timetick) (i : Nat) : Option (Timetick × List TimetickObs) :=
  if h : i < clientCnt then
    let client := s.client ⟨i, h⟩
    match client.cb with
    | none => some ({ s with isr := some (.loop (i + 1)) }, [])
    | some cb =>
        if client.ticks = 0 then none
        else if s.count % client.ticks = 0 then
          some ({ s with isr := some (.callback i) }, [.called ⟨i, h⟩ cb s.count])
        else some ({ s with isr := some (.loop (i + 1)) }, [])
  else some ({ s with count := s.count + 1, isr := none }, [.tick])

def timetickStep : Machine.Step Timetick TimetickAct TimetickObs
  | s, .register cb ticks =>
      if s.isr = none ∧ s.main = .idle then some (registerCall s cb ticks, []) else none
  | s, .deregister cb =>
      if s.isr = none ∧ s.main = .idle then some (deregisterCall s cb, []) else none
  | s, .assign => if s.isr = none then (assignStep s).map fun s₁ => (s₁, []) else none
  | s, .interrupt => if s.isr = none then some ({ s with isr := some (.loop 0) }, []) else none
  | s, .loop =>
      match s.isr with
      | some (.loop i) => isrStep s i
      | _ => none
  | s, .callbackRegister cb ticks =>
      match s.isr with
      | some (.callback _) => some ({ s with client := timetickRegister s.client cb ticks }, [])
      | _ => none
  | s, .callbackDeregister cb =>
      match s.isr with
      | some (.callback _) => some ({ s with client := timetickDeregister s.client cb }, [])
      | _ => none
  | s, .ret =>
      match s.isr with
      | some (.callback i) => some ({ s with isr := some (.loop (i + 1)) }, [])
      | _ => none

end RfPirate
