/-
Module: RfPirate.Proofs.FirmwareSerial
Layer: Proofs
Purpose: The firmware simulates the machine of the serial object, whatever commands are registered:
  the object, the queue and the output to the USB stack are those of this machine alone. So it
  simulates the machine of the lines as well, and what is proved of received lines over all
  interleavings of bytes, posts and rounds holds of the firmware.
Main exports: serialObs, SameSerial, serial_simulates, firmware_serial
-/
import RfPirate.Proofs.FirmwareEvents

namespace RfPirate

open Lib Lib.Machine

/-! ### Output -/

/-- What an observer of the USB stack sees. -/
def FirmwareObs.serial? : FirmwareObs → Option SerialOut
  | .serial o => some o
  | _ => none

/-- The part of a trace that goes to the USB stack and to the queue. -/
def serialObs (obs : List FirmwareObs) : List SerialOut := obs.filterMap FirmwareObs.serial?

theorem serialObs_append {obs obs' : List FirmwareObs} :
    serialObs (obs ++ obs') = serialObs obs ++ serialObs obs' := List.filterMap_append

theorem serialObs_composes : Composes fun obs out => out = serialObs obs where
  nil := rfl
  append h h' := by rw [serialObs_append, h, h']

theorem serialObs_map {α : Type} {f : α → FirmwareObs} (hf : ∀ a, (f a).serial? = none)
    (l : List α) : serialObs (l.map f) = [] := by
  rw [serialObs, List.filterMap_map]
  exact List.filterMap_eq_nil_iff.mpr fun a _ => hf a

theorem serialObs_serial (out : List SerialOut) : serialObs (out.map .serial) = out := by
  rw [serialObs, List.filterMap_map]
  exact List.filterMap_some

/-! ### The simulation -/

/-- The machine of the serial object stands where the firmware does. -/
structure SameSerial (s : Firmware) (t : SerialState) : Prop where
  ser : t.ser = s.ser
  queue : t.queue = s.ui.queue

section Simulation

variable {sys : UInt16} {tbl : CmdTable} {o : PostInc} {s s' : Firmware} {t : SerialState}
  {act : FirmwareAct} {obs : List FirmwareObs}

/-- The machine has a run from `t` on to where the firmware stands, with the same output. -/
def Follows (tbl : CmdTable) (o : PostInc) (t : SerialState) (s : Firmware)
    (obs : List FirmwareObs) : Prop :=
  ∃ js t' out, run (serialStep tbl o) t js = some (t', out) ∧ out = serialObs obs ∧
    SameSerial s t'

theorem SameSerial.follows (h : SameSerial s t) (hobs : serialObs obs = []) :
    Follows tbl o t s obs :=
  ⟨[], t, [], rfl, hobs.symm, h⟩

theorem clientCall_serial (h : SameSerial s t) (bank : List UInt8) (cb : TimetickCb) :
    Follows tbl o t (clientCall o bank cb s).1 (clientCall o bank cb s).2 := by
  unfold clientCall
  split
  · exact SameSerial.follows ⟨h.ser, h.queue⟩ rfl
  split
  · have hcall : run (serialStep tbl o) t [.process bank] =
        some ({ ser := (process o s.ser bank).1
                queue := (posts (process o s.ser bank).2).foldl postLine s.ui.queue },
          (process o s.ser bank).2) := by
      simp only [run, serialStep, h.ser, h.queue, List.append_nil]
    exact ⟨[.process bank], _, _, hcall, (serialObs_serial _).symm, rfl, rfl⟩
  split
  · exact SameSerial.follows ⟨h.ser, h.queue⟩ rfl
  split
  · exact SameSerial.follows ⟨h.ser, h.queue⟩ rfl
  · exact h.follows rfl

theorem clientLoop_serial {is : List ClientPtr} {bank : List UInt8}
    {r : Firmware × List FirmwareObs} (h : SameSerial s t)
    (hloop : clientLoop o bank is s = some r) : Follows tbl o t r.1 r.2 := by
  have hstart : Follows tbl o t s [] := h.follows rfl
  refine clientLoop_keeps (Follows tbl o t) ?_ hstart hloop
  rintro s₁ obs i cb ⟨js, t₁, out, hrun, hout, hsame⟩
  obtain ⟨js', t₂, out', hrun', hout', hsame'⟩ := clientCall_serial (o := o) hsame bank cb
  exact ⟨js ++ js', t₂, _, run_append hrun hrun', serialObs_composes.append hout hout', hsame'⟩

/-- Posts of anything but lines. -/
theorem postAll_run (tbl : CmdTable) (o : PostInc) {events : List EventT}
    (hevents : ∀ e ∈ events, e.event ≠ eventSerialRecv) (t : SerialState) :
    run (serialStep tbl o) t (events.map fun e => .post e.event e.data) =
      some ({ t with queue := postAll t.queue events }, []) := by
  induction events generalizing t with
  | nil => rfl
  | cons e events ih =>
      have hne := hevents e List.mem_cons_self
      have hrest := ih (fun e' he' => hevents e' (List.mem_cons_of_mem e he'))
        { t with queue := evtHandlerEvent t.queue e.event e.data }
      rw [List.map_cons, run, serialStep, if_neg hne]
      simp only [hrest]
      rfl

/-- A round of the firmware is one of the machine: whoever runs, of the serial object it changes
    what the parse of a line does. -/
theorem round_serial (hinv : FirmwareInv sys s) (h : SameSerial s t) {rv : UInt8}
    (hstep : firmwareStep sys tbl o s (.round rv) = some (s', obs)) : Follows tbl o t s' obs := by
  obtain ⟨⟨ui, offers⟩, hround, heq⟩ := Option.map_eq_some_iff.mp hstep
  cases heq
  have hobs : serialObs (offers.map .offered) = [] := serialObs_map (fun _ => rfl) offers
  cases hpending : s.ui.pending with
  | none =>
      simp only [uiStep, hpending] at hround
      cases hround
      exact SameSerial.follows ⟨h.ser, h.queue⟩ hobs
  | some e =>
      obtain ⟨w', hdispatch, -, rfl⟩ := uiStep_dispatch_inv hpending hround
      obtain ⟨hstart, hstop⟩ := (hinv.queue.round hpending).1.start_stop
      have hser : some w'.rest.ser = if e.event = eventSerialRecv then
          t.ser.parseCmd tbl o e.data.toNat else some t.ser := by
        rw [h.ser]
        exact (hinv.ui.inv.round_shared hstart hstop hdispatch).ser
      have hslot : t.queue.qTail ≠ t.queue.qHead ∧ t.queue.eventQ t.queue.qTail = e := by
        unfold UiState.pending at hpending
        rw [h.queue]
        split at hpending
        · exact ⟨‹_›, Option.some.inj hpending⟩
        · cases hpending
      have hrun : run (serialStep tbl o) t [.dispatch] =
          some ({ ser := w'.rest.ser, queue := t.queue.advance }, []) := by
        simp only [run, serialStep, if_neg hslot.1, hslot.2]
        by_cases hline : e.event = eventSerialRecv
        · rw [if_pos hline] at hser
          simp only [if_pos hline, ← hser]
          rfl
        · rw [if_neg hline] at hser
          simp only [if_neg hline, Option.some.inj hser]
          rfl
      refine ⟨[.dispatch], _, _, hrun, hobs.symm, rfl, ?_⟩
      show t.queue.advance = s.ui.queue.advance
      rw [h.queue]

/-- What the simulation relates. -/
def SerialRel (sys : UInt16) (s : Firmware) (t : SerialState) : Prop :=
  FirmwareInv sys s ∧ SameSerial s t

theorem serial_simulates (sys : UInt16) (tbl : CmdTable) (o : PostInc) :
    Simulates (firmwareStep sys tbl o) (serialStep tbl o) (SerialRel sys) (fun _ => True)
      fun obs out => out = serialObs obs := by
  rintro s t act s' obs ⟨hinv, h⟩ hstep
  have hinv' := firmwareStep_inv hinv hstep
  have hfollows : Follows tbl o t s' obs := by
    cases act with
    | timer bank =>
        obtain ⟨r, hloop, heq⟩ := Option.map_eq_some_iff.mp hstep
        cases heq
        obtain ⟨js, t', out, hrun, hout, hsame⟩ := clientLoop_serial h hloop
        refine ⟨js, t', out, hrun, ?_, hsame.ser, hsame.queue⟩
        have htick : serialObs (r.2 ++ [.timer .tick]) = serialObs r.2 := by
          rw [serialObs_append]
          exact List.append_nil _
        rw [hout]
        exact htick.symm
    | converted val =>
        obtain ⟨⟨k, out⟩, hadc, heq⟩ := Option.map_eq_some_iff.mp hstep
        cases heq
        have hposts := postAll_run tbl o (fun e he => (complete_events hadc e he).2) t
        have hobs : serialObs (out.map .sampled) = [] := serialObs_map (fun _ => rfl) out
        refine ⟨_, _, _, hposts, hobs.symm, h.ser, ?_⟩
        show postAll t.queue _ = postAll s.ui.queue _
        rw [h.queue]
    | pinChange =>
        rw [firmwareStep, if_pos (.inl (by rw [hinv.pcicr]; rfl))] at hstep
        cases hstep
    | radio regs =>
        cases hstep
        exact SameSerial.follows ⟨h.ser, h.queue⟩ rfl
    | round rv => exact round_serial hinv h hstep
  obtain ⟨js, t', out, hrun, hout, hsame⟩ := hfollows
  exact ⟨js, t', out, fun _ _ => trivial, hrun, hout, hinv', hsame⟩

end Simulation

/-- Every run of the firmware is one of the machine of the serial object, with the same object,
    queue and output. It is one of the machine of the lines, too: the receive half of the object and
    the posts are the same, and what this machine echoes and prints is among the output. -/
theorem firmware_serial (sys : UInt16) (tbl : CmdTable) (o : PostInc) (regs : RegFile)
    (mem : UsbSerial) :
    ∃ s₀, boot sys regs mem = some s₀ ∧ ∀ acts s obs,
      run (firmwareStep sys tbl o) s₀ acts = some (s, obs) →
        (∃ js t, run (serialStep tbl o) (serialInit mem) js = some (t, serialObs obs) ∧
          t.ser = s.ser ∧ t.queue = s.ui.queue) ∧
        ∃ js t out, run (pathStep o) (pathInit mem) js = some (t, out) ∧
          SameRx t.ser s.ser ∧ t.queue = s.ui.queue ∧ Within out (serialObs obs) := by
  obtain ⟨s₀, hboot, hinit⟩ := boot_inv sys regs mem
  refine ⟨s₀, hboot, fun acts s obs hrun => ?_⟩
  have hsame : SameSerial s₀ (serialInit mem) := by
    unfold boot at hboot
    obtain ⟨w, hsetup, rfl⟩ := Option.map_eq_some_iff.mp hboot
    rw [uiSetup_eq] at hsetup
    obtain ⟨cnt, oled, buf, -, rfl⟩ := drawMenu_eq hsetup
    exact ⟨rfl, rfl⟩
  obtain ⟨js, t, _, -, hrun', rfl, -, hend⟩ :=
    (serial_simulates sys tbl o).run serialObs_composes ⟨hinit, hsame⟩ hrun
  have hpath : SamePath (serialInit mem) (pathInit mem) := ⟨.refl _, rfl⟩
  obtain ⟨js', t', out, -, hrun'', hwithin, hend'⟩ :=
    (path_simulates tbl o).run within_composes hpath hrun'
  exact ⟨⟨js, t, hrun', hend.ser, hend.queue⟩, js', t', out, hrun'', hend.ser ▸ hend'.ser,
    hend'.queue.trans hend.queue, hwithin⟩

end RfPirate
