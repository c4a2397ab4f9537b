/-
Module: RfPirate.Proofs.FirmwareEvents
Layer: Proofs
Purpose: The way of an event through the firmware: from the interrupt that posts it over the queue
  and the application that runs to the base handler, which sets the battery icon. What is handled is
  a subsequence of what was posted, and the icon on the display is that of the last reading handled.
Main exports: posted, handled, readings, Interrupted, AppMenu, UiInv.enterApp_call,
  UiInv.leaveApp_call, RoundEvents, EventsInv, firmware_events, firmware_battery
-/
import RfPirate.Proofs.Firmware

namespace RfPirate

open Lib Lib.Machine

/-! ### What is posted and what is handled -/

/-- The event that an observation posts. -/
def FirmwareObs.posted? : FirmwareObs → Option EventT
  | .sampled o => some o.event
  | .serial (.post p) => some ⟨eventSerialRecv, UInt16.ofNat p⟩
  | .radio event => some ⟨event, 0⟩
  | _ => none

/-- The event that is offered to `ui_event_notify`. -/
def FirmwareObs.handled? : FirmwareObs → Option EventT
  | .offered o => if o.cb = uiEventNotifyCb then some ⟨o.event, o.data⟩ else none
  | _ => none

/-- The posts of a trace, whether the queue has room for them or not. -/
def posted (obs : List FirmwareObs) : List EventT := obs.filterMap FirmwareObs.posted?

/-- The events of a trace that reach the base handler. -/
def handled (obs : List FirmwareObs) : List EventT := obs.filterMap FirmwareObs.handled?

/-- The readings of the battery voltage among them. -/
def readings (obs : List FirmwareObs) : List UInt8 :=
  (handled obs).filterMap fun e => if e.event = eventVbatt then some e.data.toUInt8 else none

section Trace

variable {obs obs' : List FirmwareObs}

theorem posted_append : posted (obs ++ obs') = posted obs ++ posted obs' := List.filterMap_append

theorem handled_append : handled (obs ++ obs') = handled obs ++ handled obs' :=
  List.filterMap_append

theorem readings_append : readings (obs ++ obs') = readings obs ++ readings obs' := by
  rw [readings, handled_append, List.filterMap_append]
  rfl

theorem posted_sampled (out : List AdcObs) :
    posted (out.map .sampled) = out.map AdcObs.event := by
  rw [posted, List.filterMap_map, ← List.filterMap_eq_map]
  rfl

theorem posted_serial (out : List SerialOut) : posted (out.map .serial) =
    (RfPirate.posts out).map fun p => ⟨eventSerialRecv, UInt16.ofNat p⟩ := by
  rw [posted, List.filterMap_map, RfPirate.posts, List.map_filterMap]
  congr 1
  funext x
  cases x <;> rfl

theorem handled_sampled (out : List AdcObs) : handled (out.map .sampled) = [] := by
  rw [handled, List.filterMap_map]
  exact List.filterMap_eq_nil_iff.mpr fun _ _ => rfl

theorem handled_serial (out : List SerialOut) : handled (out.map .serial) = [] := by
  rw [handled, List.filterMap_map]
  exact List.filterMap_eq_nil_iff.mpr fun _ _ => rfl

end Trace

/-! ### Interrupts -/

section Interrupts

variable {sys : UInt16} {o : PostInc} {s s' s'' : Firmware} {obs obs' : List FirmwareObs}
  {q : EventQueue}

/-- Of the posts the queue takes those that find room, in their order. -/
theorem postAll_pending (h : QueueView q q.pending) (events : List EventT) :
    QueueView (postAll q events) (postAll q events).pending ∧
      ∃ l, l.Sublist events ∧ (postAll q events).pending = q.pending ++ l := by
  induction events generalizing q with
  | nil => exact ⟨h, [], .refl [], (List.append_nil _).symm⟩
  | cons e events ih =>
      rcases evtHandlerEvent_view h e.event e.data with ⟨-, hsame⟩ | ⟨-, hview⟩
      · obtain ⟨hview, l, hl, hpending⟩ := ih h
        have hrest : postAll q (e :: events) = postAll q events := by
          rw [postAll, List.foldl_cons, hsame]
          rfl
        rw [hrest]
        exact ⟨hview, l, hl.cons e, hpending⟩
      · have heq := hview.pending_eq
        obtain ⟨hview', l, hl, hpending⟩ := ih (heq.symm ▸ hview)
        refine ⟨hview', e :: l, hl.cons_cons e, ?_⟩
        show (postAll (evtHandlerEvent q e.event e.data) events).pending = q.pending ++ e :: l
        rw [hpending, heq, List.append_assoc]
        rfl

/-- What an interrupt does to the events: it handles none, and appends some of its posts. -/
structure Interrupted (s s' : Firmware) (obs : List FirmwareObs) : Prop where
  handled : handled obs = []
  view : QueueView s'.ui.queue s'.ui.queue.pending
  posts : ∃ l, l.Sublist (posted obs) ∧ s'.ui.queue.pending = s.ui.queue.pending ++ l
  battIcon : s'.ui.world.rest.battIcon = s.ui.world.rest.battIcon

theorem Interrupted.silent (h : QueueView s.ui.queue s.ui.queue.pending)
    (hhandled : RfPirate.handled obs = []) (hqueue : s'.ui.queue = s.ui.queue)
    (hicon : s'.ui.world.rest.battIcon = s.ui.world.rest.battIcon) : Interrupted s s' obs :=
  ⟨hhandled, hqueue.symm ▸ h, ⟨[], List.nil_sublist _, by rw [hqueue, List.append_nil]⟩, hicon⟩

theorem Interrupted.trans (h : Interrupted s s' obs) (h' : Interrupted s' s'' obs') :
    Interrupted s s'' (obs ++ obs') := by
  obtain ⟨l, hl, hpending⟩ := h.posts
  obtain ⟨l', hl', hpending'⟩ := h'.posts
  refine ⟨by rw [handled_append, h.handled, h'.handled]; rfl, h'.view, ⟨l ++ l', ?_, ?_⟩,
    h'.battIcon.trans h.battIcon⟩
  · rw [posted_append]
    exact hl.append hl'
  · rw [hpending', hpending, List.append_assoc]

theorem clientCall_interrupted (h : QueueView s.ui.queue s.ui.queue.pending) (o : PostInc)
    (bank : List UInt8) (cb : TimetickCb) :
    Interrupted s (clientCall o bank cb s).1 (clientCall o bank cb s).2 := by
  unfold clientCall
  split
  · exact .silent h rfl rfl rfl
  split
  · have hpost := postAll_pending h ((RfPirate.posts (process o s.ser bank).2).map fun p =>
      (⟨eventSerialRecv, UInt16.ofNat p⟩ : EventT))
    rw [postAll, List.foldl_map] at hpost
    obtain ⟨hview, l, hl, hpending⟩ := hpost
    refine ⟨handled_serial _, hview, ⟨l, ?_, hpending⟩, rfl⟩
    show l.Sublist (posted ((process o s.ser bank).2.map .serial))
    rw [posted_serial]
    exact hl
  split
  · exact .silent h rfl rfl rfl
  split
  · exact .silent h rfl rfl rfl
  · exact .silent h rfl rfl rfl

theorem clientLoop_interrupted {is : List ClientPtr} {bank : List UInt8}
    {r : Firmware × List FirmwareObs} (h : QueueView s.ui.queue s.ui.queue.pending)
    (hloop : clientLoop o bank is s = some r) : Interrupted s r.1 r.2 := by
  have hstart : Interrupted s s [] := .silent h rfl rfl rfl
  refine clientLoop_keeps (Interrupted s) (fun s₁ obs i cb h₁ => ?_) hstart hloop
  have hcalled : Interrupted s₁ s₁ [.timer (.called i cb s₁.count)] := .silent h₁.view rfl rfl rfl
  exact h₁.trans (hcalled.trans (clientCall_interrupted h₁.view o bank cb))

theorem timer_interrupted {bank : List UInt8} {r : Firmware × List FirmwareObs}
    (h : QueueView s.ui.queue s.ui.queue.pending) (hisr : timerIsr o bank s = some r) :
    Interrupted s r.1 r.2 := by
  obtain ⟨r', hloop, rfl⟩ := Option.map_eq_some_iff.mp hisr
  have hclients := clientLoop_interrupted h hloop
  exact hclients.trans (.silent hclients.view rfl rfl rfl)

theorem converted_interrupted {r : Keypad × List AdcObs}
    (h : QueueView s.ui.queue s.ui.queue.pending) :
    Interrupted s
      { s with
        keypad := r.1
        ui := { s.ui with queue := postAll s.ui.queue (r.2.map AdcObs.event) } }
      (r.2.map .sampled) := by
  obtain ⟨hview, hposts⟩ := postAll_pending h (r.2.map AdcObs.event)
  refine ⟨handled_sampled r.2, hview, ?_, rfl⟩
  rw [posted_sampled]
  exact hposts

end Interrupts

/-! ### Rounds -/

section Rounds

variable {sys : UInt16} {tbl : CmdTable} {o : PostInc} {rv : UInt8} {e : EventT}
  {w w' : World Vars} {s s' : Firmware} {obs : List FirmwareObs}

/-- An application consumes both. -/
theorem firmware_call_consumes {event : UInt8}
    (hevent : event = eventAppStart ∨ event = eventAppStop) {cb : EventNotifyCb}
    (hcb : cb = rfEventNotifyCb ∨ cb = rfDebugNotifyCb) (data : UInt16) (w : World Vars) :
    ((firmware sys).call cb event data w).1 ≠ 0 := by
  have hone : (1 : UInt8) ≠ 0 := by decide
  rcases hcb with rfl | rfl
  · show (rfEventNotify event data w).1 ≠ 0
    rcases hevent with rfl | rfl
    · rw [rfEventNotify, if_pos rfl]
      split <;> exact hone
    · rw [rfEventNotify, if_neg (by decide), if_pos rfl]
      exact hone
  · show (rfDebugNotify 0 event data w).1 ≠ 0
    rcases hevent with rfl | rfl
    · rw [rfDebugNotify, if_pos rfl]
      exact hone
    · rw [rfDebugNotify, if_neg (by decide), if_pos rfl]
      exact hone

/-- The callbacks of the applications and their menus. -/
def AppMenu (cb : EventNotifyCb) (menu : MenuPtr) : Prop :=
  cb = rfEventNotifyCb ∧ menu = mRfRoot ∨ cb = rfDebugNotifyCb ∧ menu = mRfDebug

/-- An entry that leads on is that of an application. -/
theorem firmware_app {menu next : MenuPtr} {i : Nat}
    (h : ((firmware sys).menus menu i).next? = some next) :
    ∃ text cb, (firmware sys).menus menu i = .evtHdl text next (some cb) ∧ AppMenu cb next := by
  rcases @firmware_entry sys menu i with ⟨hnone, -⟩ | ⟨text, heq | heq⟩
  · rw [hnone] at h
    cases h
  · rw [heq] at h
    cases h
    exact ⟨text, _, heq, .inl ⟨rfl, rfl⟩⟩
  · rw [heq] at h
    cases h
    exact ⟨text, _, heq, .inr ⟨rfl, rfl⟩⟩

/-- Entering an application calls it, and nobody else. -/
theorem UiInv.enterApp_call (h : UiInv sys w) {text : Option CStr} {next : MenuPtr}
    {cb : Option EventNotifyCb} {w₂ : World Vars} {offers : List Offer}
    (hentry : (firmware sys).entry w = .evtHdl text next cb)
    (hstart : evtHandlerSyncevent (firmware sys).callbacks eventAppStart (firmware sys).sys
      maxHandlers (startApp cb w) = some (w₂, offers)) :
    ∃ c, cb = some c ∧ AppMenu c next ∧
      w₂ = ((firmware sys).call c eventAppStart sys (startApp (some c) w)).2 := by
  obtain ⟨text', c, heq, happ⟩ := firmware_app (congrArg MenuEntry.next? hentry)
  obtain rfl : cb = some c := (MenuEntry.evtHdl.inj (hentry.symm.trans heq)).2.2
  have hroom : (entered (firmware sys) w ++ [uiEventNotifyCb]).length < maxHandlers := by
    rcases h.apps with heq | heq | heq <;> rw [heq] <;> decide
  have hregistered : Registered (startApp (some c) w).handlers
      (c :: (entered (firmware sys) w ++ [uiEventNotifyCb])) := by
    have hadd := addhandler_registered h.registered c
    rwa [if_pos hroom] at hadd
  have hconsumed := @firmware_call_consumes sys eventAppStart (.inl rfl) c
    (happ.imp And.left And.left) sys (startApp (some c) w)
  exact ⟨c, rfl, happ, syncevent_consumed hregistered hconsumed hstart⟩

/-- The level below the current one is that of an application. -/
theorem UiInv.below_app (h : UiInv sys w) (hidx : 0 < w.menu.stackIdx) :
    ∃ c, enteredCb (firmware sys) (popMenu w).cur.level = some c ∧ AppMenu c w.cur.menu ∧
      ((firmware sys).menus (popMenu w).cur.menu (popMenu w).cur.selected).next? =
        some w.cur.menu := by
  have hlink := h.linked (w.menu.stackIdx - 1) (by omega)
  rw [Nat.sub_add_cancel hidx, ← h.cur_def] at hlink
  obtain ⟨text, c, heq, happ⟩ := firmware_app hlink
  have hcb := congrArg (fun e => e.evtHandler?.join) heq
  exact ⟨c, hcb, happ, hlink⟩

/-- Leaving it calls it, too. -/
theorem UiInv.leaveApp_call (h : UiInv sys w) (hidx : 0 < w.menu.stackIdx) {w₂ : World Vars}
    {offers : List Offer}
    (hstop : evtHandlerSyncevent (firmware sys).callbacks eventAppStop 0 maxHandlers (stopApp w) =
      some (w₂, offers)) :
    ∃ c, AppMenu c w.cur.menu ∧
      w₂ = ((firmware sys).call c eventAppStop 0 (stopApp w)).2 := by
  obtain ⟨c, hcb, happ, -⟩ := h.below_app hidx
  have hregistered : Registered (stopApp w).handlers
      (c :: (entered (firmware sys) (popMenu w) ++ [uiEventNotifyCb])) := by
    have hreg := h.registered
    rwa [h.below_filterMap hidx, hcb] at hreg
  have hconsumed := @firmware_call_consumes sys eventAppStop (.inr rfl) c
    (happ.imp And.left And.left) 0 (stopApp w)
  exact ⟨c, happ, syncevent_consumed hregistered hconsumed hstop⟩

/-- What a round does to the events: nothing if none is pending; else it takes the oldest one away
    and the base handler gets it, or the application consumes it, which it does with keys only. -/
inductive RoundEvents (tbl : CmdTable) (o : PostInc) (s s' : Firmware)
    (obs : List FirmwareObs) : Prop where
  | idle (pending : s.ui.pending = none) (same : s' = s) (quiet : obs = [])
  | handled {e : EventT} (pending : s.ui.pending = some e)
      (rest : s.ui.queue.pending = e :: s'.ui.queue.pending) (events : handled obs = [e])
      (shared : Handled tbl o e s.ui.world.rest s'.ui.world.rest)
  | consumed {e : EventT} (pending : s.ui.pending = some e)
      (rest : s.ui.queue.pending = e :: s'.ui.queue.pending) (key : e.event = eventKeypress)
      (events : handled obs = []) (shared : SameShared s.ui.world.rest s'.ui.world.rest)

theorem FirmwareInv.round_events (h : FirmwareInv sys s)
    (hstep : firmwareStep sys tbl o s (.round rv) = some (s', obs)) :
    RoundEvents tbl o s s' obs := by
  obtain ⟨⟨ui, offers⟩, hround, heq⟩ := Option.map_eq_some_iff.mp hstep
  cases heq
  cases hpending : s.ui.pending with
  | none =>
      simp only [uiStep, hpending] at hround
      cases hround
      exact .idle hpending rfl rfl
  | some e =>
      obtain ⟨w', hdispatch, -, rfl⟩ := uiStep_dispatch_inv hpending hround
      have hrest := (h.queue.view.round hpending).1
      obtain ⟨hstart, hstop⟩ := (h.queue.round hpending).1.start_stop
      have hshared := h.ui.inv.round_shared hstart hstop hdispatch
      cases h.ui.inv.round_parts hdispatch with
      | base call => exact .handled hpending hrest rfl hshared
      | @consumed cb rv' app call ne =>
          obtain ⟨hcb, hshared, hkey⟩ := h.ui.inv.app_call app call hstart hstop
          refine .consumed hpending hrest (hkey ne) ?_ hshared
          simp [handled, FirmwareObs.handled?, hcb]
      | @passed cb w₁ app call base =>
          obtain ⟨hcb, -, -⟩ := h.ui.inv.app_call app call hstart hstop
          refine .handled hpending hrest ?_ hshared
          simp [handled, FirmwareObs.handled?, hcb]

end Rounds

/-! ### Runs -/

/-- What is handled and what is pending was posted, in this order; the icon is that of the last
    reading handled. -/
structure EventsInv (sys : UInt16) (tbl : CmdTable) (s : Firmware) (obs : List FirmwareObs) :
    Prop extends FirmwareInv sys s where
  order : (handled obs ++ s.ui.queue.pending).Sublist (posted obs)
  genuine : ∀ e ∈ handled obs, EventOk e ∧ (tbl = cmdTbl → e.event ≠ eventSerialRecv)
  level : s.ui.world.rest.battIcon = (readings obs).getLast?.elim .batt1p0 updateVbatt

section Runs

variable {sys : UInt16} {tbl : CmdTable} {o : PostInc} {s s' : Firmware} {act : FirmwareAct}
  {obs obs' : List FirmwareObs}

/-- The icon after another event is handled. -/
theorem Handled.icon {e : EventT} {trace : List FirmwareObs} (htrace : handled trace = [e])
    {v v' : Vars} (h : Handled tbl o e v v')
    (hlevel : v.battIcon = (readings obs).getLast?.elim .batt1p0 updateVbatt) :
    v'.battIcon = (readings (obs ++ trace)).getLast?.elim .batt1p0 updateVbatt := by
  rw [readings_append, h.battIcon]
  by_cases hvbatt : e.event = eventVbatt
  · have hreading : readings trace = [e.data.toUInt8] := by
      rw [readings, htrace]
      simp [hvbatt]
    rw [if_pos hvbatt, hreading, List.getLast?_concat]
    rfl
  · have hnone : readings trace = [] := by
      rw [readings, htrace]
      simp [hvbatt]
    rw [if_neg hvbatt, hnone, List.append_nil, ← hlevel]

namespace EventsInv

theorem interrupted (h : EventsInv sys tbl s obs) (hinv : FirmwareInv sys s')
    (hint : Interrupted s s' obs') : EventsInv sys tbl s' (obs ++ obs') := by
  obtain ⟨l, hl, hpending⟩ := hint.posts
  have hhandled : handled (obs ++ obs') = handled obs := by
    rw [handled_append, hint.handled, List.append_nil]
  have hreadings : readings (obs ++ obs') = readings obs := by rw [readings, hhandled, readings]
  refine { hinv with order := ?_, genuine := hhandled ▸ h.genuine, level := ?_ }
  · rw [hhandled, hpending, posted_append, ← List.append_assoc]
    exact h.order.append hl
  · rw [hint.battIcon, hreadings]
    exact h.level

theorem round (h : EventsInv sys tbl s obs) (hinv : FirmwareInv sys s')
    (hreturns : ¬ StopsAtLine tbl s.ui) (hround : RoundEvents tbl o s s' obs') :
    EventsInv sys tbl s' (obs ++ obs') := by
  have hposted : (posted obs).Sublist (posted (obs ++ obs')) := by
    rw [posted_append]
    exact List.sublist_append_left _ _
  cases hround with
  | idle pending same quiet =>
      subst same quiet
      rw [List.append_nil]
      exact h
  | @handled e pending rest events shared =>
      refine { hinv with order := ?_, genuine := ?_, level := ?_ }
      · rw [handled_append, events, List.append_assoc, List.singleton_append, ← rest]
        exact h.order.trans hposted
      · intro e' he'
        rw [handled_append, events] at he'
        rcases List.mem_append.mp he' with hold | hnew
        · exact h.genuine e' hold
        · rw [List.mem_singleton.mp hnew]
          refine ⟨(h.queue.round pending).1, fun htbl hline => hreturns ?_⟩
          subst htbl
          exact ⟨e, pending, hline, not_parses_cmdTbl _⟩
      · exact shared.icon events h.level
  | @consumed e pending rest key events shared =>
      have hhandled : RfPirate.handled (obs ++ obs') = RfPirate.handled obs := by
        rw [handled_append, events, List.append_nil]
      have hreadings : readings (obs ++ obs') = readings obs := by rw [readings, hhandled, readings]
      refine { hinv with order := ?_, genuine := hhandled ▸ h.genuine, level := ?_ }
      · have hrest : s'.ui.queue.pending.Sublist s.ui.queue.pending := by
          rw [rest]
          exact List.sublist_cons_self _ _
        rw [hhandled]
        exact ((List.Sublist.refl _).append hrest).trans (h.order.trans hposted)
      · rw [shared.battIcon, hreadings]
        exact h.level

theorem step (h : EventsInv sys tbl s obs)
    (hstep : firmwareStep sys tbl o s act = some (s', obs')) :
    EventsInv sys tbl s' (obs ++ obs') := by
  have hinv := firmwareStep_inv h.toFirmwareInv hstep
  cases act with
  | timer bank => exact h.interrupted hinv (timer_interrupted h.queue.view hstep)
  | converted val =>
      obtain ⟨r, -, heq⟩ := Option.map_eq_some_iff.mp hstep
      cases heq
      exact h.interrupted hinv (converted_interrupted h.queue.view)
  | pinChange =>
      rw [firmwareStep, if_pos (.inl (by rw [h.pcicr]; rfl))] at hstep
      cases hstep
  | radio regs =>
      cases hstep
      exact h.interrupted hinv (.silent h.queue.view rfl rfl rfl)
  | round rv =>
      have hreturns : ¬ StopsAtLine tbl s.ui := by
        intro hstop
        rw [(h.round_none_iff tbl o rv).mpr (.inr hstop)] at hstep
        cases hstep
      exact h.round hinv hreturns (h.toFirmwareInv.round_events hstep)

end EventsInv

theorem firmwareRun_events {regs : RegFile} {mem : UsbSerial} {s₀ : Firmware}
    {acts : List FirmwareAct} (hboot : boot sys regs mem = some s₀)
    (hrun : run (firmwareStep sys tbl o) s₀ acts = some (s, obs)) : EventsInv sys tbl s obs := by
  have hinit : FirmwareInv sys s₀ :=
    firmwareRun_inv hboot (@run_nil _ _ _ (firmwareStep sys tbl o) s₀)
  unfold boot at hboot
  obtain ⟨w, hsetup, rfl⟩ := Option.map_eq_some_iff.mp hboot
  have hlevel : w.rest.battIcon = .batt1p0 := by
    rw [uiSetup_eq] at hsetup
    obtain ⟨cnt, oled, buf, -, rfl⟩ := drawMenu_eq hsetup
    rfl
  refine run_induction (fun s obs act s' obs' h hstep => EventsInv.step h hstep) ?_ hrun
  refine { hinit with
    order := ?_
    genuine := fun e he => absurd he List.not_mem_nil
    level := hlevel }
  show (handled [] ++ EventQueue.zero.pending).Sublist (posted [])
  rw [QueueView.zero.pending_eq]
  exact .refl []

end Runs

/-- In every run of the firmware, what reaches the base handler are keys, readings of the battery
    voltage and received lines that an interrupt posted, in the order of the posts and each one
    once; and every pending event but a key reaches it in the next round, whichever application
    runs, if it is not a line whose parse does not return. -/
theorem firmware_events (sys : UInt16) (tbl : CmdTable) (o : PostInc) (regs : RegFile)
    (mem : UsbSerial) :
    ∃ s₀, boot sys regs mem = some s₀ ∧ ∀ acts s obs,
      run (firmwareStep sys tbl o) s₀ acts = some (s, obs) →
        (handled obs).Sublist (posted obs) ∧
        (∀ e ∈ handled obs, EventOk e ∧ (tbl = cmdTbl → e.event ≠ eventSerialRecv)) ∧
        ∀ rv e, s.ui.pending = some e → e.event ≠ eventKeypress → ¬ StopsAtLine tbl s.ui →
          ∃ s' obs', firmwareStep sys tbl o s (.round rv) = some (s', obs') ∧
            handled obs' = [e] := by
  obtain ⟨s₀, hboot, -⟩ := boot_inv sys regs mem
  refine ⟨s₀, hboot, fun acts s obs hrun => ?_⟩
  have hinv := firmwareRun_events hboot hrun
  refine ⟨(List.sublist_append_left _ _).trans hinv.order, hinv.genuine, ?_⟩
  intro rv e hpending hkey hstops
  have hnot : ¬ (SelectsBootloader sys s.ui ∨ StopsAtLine tbl s.ui) := by
    rintro (⟨hselect, -⟩ | hstop)
    · obtain rfl := Option.some.inj (hpending.symm.trans hselect)
      exact hkey rfl
    · exact hstops hstop
  obtain ⟨⟨s', obs'⟩, hstep⟩ := Option.ne_none_iff_exists'.mp
    (mt (hinv.toFirmwareInv.round_none_iff tbl o rv).mp hnot)
  refine ⟨s', obs', hstep, ?_⟩
  cases hinv.toFirmwareInv.round_events hstep with
  | idle pending same quiet => cases hpending.symm.trans pending
  | handled pending rest events shared =>
      rw [events, Option.some.inj (hpending.symm.trans pending)]
  | consumed pending rest key events shared =>
      obtain rfl := Option.some.inj (hpending.symm.trans pending)
      exact absurd key hkey

/-- In every run of the firmware, after every step the display shows the battery icon in its two
    cells, and it is the icon of the last reading that the base handler got, or the full battery as
    long as there was none. -/
theorem firmware_battery (sys : UInt16) (tbl : CmdTable) (o : PostInc) (regs : RegFile)
    (mem : UsbSerial) :
    ∃ s₀, boot sys regs mem = some s₀ ∧ ∀ acts s obs,
      run (firmwareStep sys tbl o) s₀ acts = some (s, obs) →
        IconShown s.ui.world ∧
        s.ui.world.rest.battIcon = (readings obs).getLast?.elim .batt1p0 updateVbatt := by
  obtain ⟨s₀, hboot, -⟩ := boot_inv sys regs mem
  refine ⟨s₀, hboot, fun acts s obs hrun => ?_⟩
  have hinv := firmwareRun_events hboot hrun
  exact ⟨hinv.icon.shown, hinv.level⟩

end RfPirate
