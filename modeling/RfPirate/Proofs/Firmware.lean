/-
Module: RfPirate.Proofs.Firmware
Layer: Proofs
Purpose: Every run of the whole firmware. The timer interrupt never divides by zero, the handlers
  always return, the queue holds only keys, readings and lines, and the icon is always shown. A
  round ends the run in two ways only: it selects the entry of the root menu that jumps to the
  bootloader, or the parse of its line does not return.
Main exports: EventOk, QueueOk, SerialOk, FirmwareInv, firmwareStep_inv, boot_inv, firmwareRun_inv,
  clientLoop_keeps, SelectsBootloader, firmware_progress
-/
import RfPirate.Core.Firmware
import RfPirate.Proofs.AdcChannel
import RfPirate.Proofs.BatteryIcon
import RfPirate.Proofs.EvtQueue
import RfPirate.Proofs.SerialPath
import RfPirate.Proofs.Timetick
import RfPirate.Proofs.UiRounds

namespace RfPirate

open Lib Lib.Machine

/-! ### What is posted -/

/-- The codes that the converter's interrupt makes of its results. -/
def keycodes : List UInt8 := [keyUp, keyDown, keyLeft, keyRight, keySelect]

/-- The events of the firmware: a key, a reading of the battery voltage that was not tried again, or
    a line in one of the buffers `rx_q[0]` to `rx_q[RX_DEPTH]`. The last of these lies behind the
    array and is used only if `i = i++` increments. -/
inductive EventOk : EventT → Prop where
  | key {k : UInt8} (hk : k ∈ keycodes) : EventOk ⟨eventKeypress, k.toUInt16⟩
  | vbatt {val : UInt8} (hval : val ≠ 0xff) : EventOk ⟨eventVbatt, val.toUInt16⟩
  | line {p : Nat} (hp : p ≤ rxDepth) : EventOk ⟨eventSerialRecv, UInt16.ofNat p⟩

section Events

variable {e : EventT} {q : EventQueue}

theorem EventOk.code (h : EventOk e) :
    e.event = eventKeypress ∨ e.event = eventVbatt ∨ e.event = eventSerialRecv := by
  cases h with
  | key hk => exact .inl rfl
  | vbatt hval => exact .inr (.inl rfl)
  | line hp => exact .inr (.inr rfl)

/-- None of them starts or stops an application. -/
theorem EventOk.start_stop (h : EventOk e) : e.event ≠ eventAppStart ∧ e.event ≠ eventAppStop := by
  rcases h.code with heq | heq | heq <;>
  · rw [heq]
    decide

/-- None of them prints on line 7. -/
theorem EventOk.rfEventLine (h : EventOk e) : rfEventLine e.event = 6 := by
  rcases h.code with heq | heq | heq <;>
  · rw [heq]
    decide

theorem keycode5_mem (val : UInt8) (h : keycode5 val ≠ 0) : keycode5 val ∈ keycodes := by
  unfold keycode5 at h ⊢
  split
  · decide
  · rename_i hdown
    rw [if_neg hdown] at h
    split
    · decide
    · rename_i hright
      rw [if_neg hright] at h
      exact absurd rfl h

theorem keycode6_mem (val : UInt8) (h : keycode6 val ≠ 0) : keycode6 val ∈ keycodes := by
  unfold keycode6 at h ⊢
  split
  · decide
  split
  · decide
  split
  · decide
  · rename_i hselect hup hleft
    rw [if_neg hselect, if_neg hup, if_neg hleft] at h
    exact absurd rfl h

/-- Whatever `state` says, the interrupt of the converter posts keys and readings. -/
theorem adcIsr_events (s : Keypad) (val : UInt8) :
    ∀ e ∈ (adcIsr s val).2, EventOk e ∧ e.event ≠ eventSerialRecv := by
  have hkey : eventKeypress ≠ eventSerialRecv := by decide
  have hvbatt : eventVbatt ≠ eventSerialRecv := by decide
  intro e he
  unfold adcIsr at he
  split at he
  · rcases mem_produce he with hnil | ⟨hcode, rfl⟩
    · cases hnil
    · exact ⟨.key (keycode5_mem val hcode), hkey⟩
  split at he
  · rcases mem_produce he with hnil | ⟨hcode, rfl⟩
    · cases hnil
    · exact ⟨.key (keycode6_mem val hcode), hkey⟩
  split at he
  · split at he
    · rename_i hval
      rcases mem_produce he with hevent | ⟨hcode, -⟩
      · rw [List.mem_singleton.mp hevent]
        exact ⟨.vbatt hval, hvbatt⟩
      · exact absurd rfl hcode
    · rcases mem_produce he with hnil | ⟨hcode, -⟩
      · cases hnil
      · exact absurd rfl hcode
  · rcases mem_produce he with hnil | ⟨hcode, -⟩
    · cases hnil
    · exact absurd rfl hcode

/-- So does the end of a conversion. -/
theorem complete_events {s s' : Keypad} {val : UInt8} {out : List AdcObs}
    (h : adcStep s (.complete val) = some (s', out)) :
    ∀ e ∈ out.map AdcObs.event, EventOk e ∧ e.event ≠ eventSerialRecv := by
  simp only [adcStep] at h
  split at h
  · cases h
  · cases h
    intro e he
    rw [List.map_map] at he
    exact adcIsr_events _ val e (by simpa using he)

/-- A round takes away the oldest event. -/
theorem QueueView.round {s : UiState} (h : QueueView s.queue s.queue.pending)
    (hpending : s.pending = some e) :
    s.queue.pending = e :: s.queue.advance.pending ∧
      QueueView s.queue.advance s.queue.advance.pending := by
  unfold UiState.pending at hpending
  split at hpending
  · rename_i hne
    obtain ⟨e', rest, hlist⟩ := List.exists_cons_of_ne_nil (h.tail_ne_head_iff.mp hne)
    have hview : QueueView s.queue (e' :: rest) := hlist ▸ h
    obtain rfl : e' = e := Option.some.inj (hview.oldest ▸ hpending)
    have hrest := advance_view hview
    rw [hrest.pending_eq]
    exact ⟨hlist, hrest⟩
  · cases hpending

/-- The queue is a ring of such events. -/
structure QueueOk (q : EventQueue) : Prop where
  view : QueueView q q.pending
  events : ∀ e ∈ q.pending, EventOk e

theorem QueueOk.of_view {pending : List EventT} (hview : QueueView q pending)
    (hevents : ∀ e ∈ pending, EventOk e) : QueueOk q := by
  have heq := hview.pending_eq
  exact ⟨heq.symm ▸ hview, heq.symm ▸ hevents⟩

theorem QueueOk.zero : QueueOk .zero :=
  .of_view QueueView.zero fun _ he => absurd he List.not_mem_nil

/-- A post that finds the queue full is dropped. -/
theorem QueueOk.post (h : QueueOk q) (he : EventOk e) :
    QueueOk (evtHandlerEvent q e.event e.data) := by
  rcases evtHandlerEvent_view h.view e.event e.data with ⟨-, hsame⟩ | ⟨-, hview⟩
  · rw [hsame]
    exact h
  · refine .of_view hview fun e' he' => ?_
    rcases List.mem_append.mp he' with hold | hnew
    · exact h.events e' hold
    · rw [List.mem_singleton.mp hnew]
      exact he

theorem QueueOk.postAll (h : QueueOk q) {events : List EventT} (hevents : ∀ e ∈ events, EventOk e) :
    QueueOk (postAll q events) := by
  induction events generalizing q with
  | nil => exact h
  | cons e events ih =>
      exact ih (h.post (hevents e List.mem_cons_self))
        fun e' he' => hevents e' (List.mem_cons_of_mem e he')

theorem QueueOk.postLines (h : QueueOk q) {ps : List Nat} (hps : ∀ p ∈ ps, p ≤ rxDepth) :
    QueueOk (ps.foldl postLine q) := by
  induction ps generalizing q with
  | nil => exact h
  | cons p ps ih =>
      have hpost : QueueOk (postLine q p) := h.post (.line (hps p List.mem_cons_self))
      exact ih hpost fun p' hp' => hps p' (List.mem_cons_of_mem p hp')

/-- The event of the next round is the oldest one, and the round takes it away. -/
theorem QueueOk.round {s : UiState} (h : QueueOk s.queue) (hpending : s.pending = some e) :
    EventOk e ∧ QueueOk s.queue.advance := by
  obtain ⟨hlist, hview⟩ := h.view.round hpending
  have hevents := h.events
  rw [hlist] at hevents
  exact ⟨hevents e List.mem_cons_self, .of_view hview fun e' he' =>
    hevents e' (List.mem_cons_of_mem e he')⟩

end Events

/-! ### The serial object -/

/-- The cursors are where `buffer_rx` leaves them: there is room in the line, and the buffer is one
    of the `RX_DEPTH` or the memory right behind them. -/
structure SerialOk (ser : UsbSerial) : Prop where
  rxIdx : ser.rxIdx < usbSerialBufSz - 1
  rxP : ser.rxP ≤ rxDepth

section Serial

variable {o : PostInc} {ser : UsbSerial}

theorem wrap_le (o : PostInc) {i depth : Nat} (hdepth : depth < 256) : wrap o i depth ≤ depth := by
  unfold wrap
  split
  · exact Nat.zero_le depth
  · cases o with
    | unchanged => exact Nat.le_of_lt (Nat.lt_of_not_le ‹_›)
    | incremented =>
        show (i + 1) % 256 ≤ depth
        omega

/-- The parse of a line does not touch them. -/
theorem SerialOk.congr (h : SerialOk ser) {ser' : UsbSerial} (hrxP : ser'.rxP = ser.rxP)
    (hrxIdx : ser'.rxIdx = ser.rxIdx) : SerialOk ser' :=
  ⟨hrxIdx ▸ h.rxIdx, hrxP ▸ h.rxP⟩

theorem SerialOk.bufferRx (h : SerialOk ser) (o : PostInc) (b : UInt8) :
    SerialOk (bufferRx o ser b).1 ∧ ∀ p ∈ posts (bufferRx o ser b).2, p ≤ rxDepth := by
  rcases bufferRx_cases o b h.rxIdx with ⟨-, hended, hposts⟩ | ⟨-, hedit, hposts, hroom⟩
  · rw [hposts]
    refine ⟨⟨?_, ?_⟩, fun p hp => ?_⟩
    · rw [hended.rxIdx]
      decide
    · rw [hended.rxP]
      exact wrap_le o (by decide)
    · rw [List.mem_singleton.mp hp]
      exact h.rxP
  · rw [hedit, hposts]
    refine ⟨⟨hroom, ?_⟩, fun p hp => absurd hp List.not_mem_nil⟩
    rw [editRx_rxP]
    exact h.rxP

theorem SerialOk.rxLoop (h : SerialOk ser) (o : PostInc) (bs : List UInt8) :
    SerialOk (rxLoop o ser bs).1 ∧ ∀ p ∈ posts (rxLoop o ser bs).2, p ≤ rxDepth := by
  induction bs generalizing ser with
  | nil => exact ⟨h, fun p hp => absurd hp List.not_mem_nil⟩
  | cons b bs ih =>
      obtain ⟨hfirst, hposts⟩ := h.bufferRx o b
      obtain ⟨hrest, hposts'⟩ := ih hfirst
      refine ⟨hrest, fun p hp => ?_⟩
      have happend : posts (RfPirate.rxLoop o ser (b :: bs)).2 =
          posts (RfPirate.bufferRx o ser b).2 ++
            posts (RfPirate.rxLoop o (RfPirate.bufferRx o ser b).1 bs).2 := List.filterMap_append
      rw [happend] at hp
      rcases List.mem_append.mp hp with hp | hp
      · exact hposts p hp
      · exact hposts' p hp

theorem SerialOk.process (h : SerialOk ser) (o : PostInc) (bank : List UInt8) :
    SerialOk (process o ser bank).1 ∧ ∀ p ∈ posts (process o ser bank).2, p ≤ rxDepth := by
  obtain ⟨hloop, hposts⟩ := h.rxLoop o (received bank)
  obtain ⟨hsent, hwithin⟩ := process_within o ser bank
  exact ⟨hloop.congr hsent.rxP hsent.rxIdx, hwithin.posts ▸ hposts⟩

end Serial

/-! ### The invariant -/

/-- What holds between any two steps. -/
structure FirmwareInv (sys : UInt16) (s : Firmware) : Prop where
  ui : UiStateInv sys s.ui
  icon : IconInv s.ui.world
  queue : QueueOk s.ui.queue
  serial : SerialOk s.ser
  client : s.client = clients
  pcicr : s.pcicr = 0

section Invariant

variable {sys : UInt16} {tbl : CmdTable} {o : PostInc} {s s' : Firmware} {act : FirmwareAct}
  {obs : List FirmwareObs}

/-- What every call of a client keeps, with the observations so far, the loop keeps. -/
theorem clientLoop_keeps (inv : Firmware → List FirmwareObs → Prop) {bank : List UInt8}
    (hcall : ∀ s obs i cb, inv s obs → inv (clientCall o bank cb s).1
      (obs ++ .timer (.called i cb s.count) :: (clientCall o bank cb s).2))
    {is : List ClientPtr} {r : Firmware × List FirmwareObs} (hs : inv s obs)
    (h : clientLoop o bank is s = some r) : inv r.1 (obs ++ r.2) := by
  induction is generalizing s obs r with
  | nil =>
      cases h
      rwa [List.append_nil]
  | cons i is ih =>
      rw [clientLoop] at h
      split at h
      · exact ih hs h
      · rename_i cb _
        split at h
        · cases h
        split at h
        · obtain ⟨r', hrest, rfl⟩ := Option.map_eq_some_iff.mp h
          have hloop := ih (hcall s obs i cb hs) hrest
          rwa [List.append_assoc] at hloop
        · exact ih hs h

/-- The clients have periods, so that the interrupt can divide by them. -/
theorem clients_sane : ∀ i, SlotOk clients i := by decide

namespace FirmwareInv

/-- Posts, and what neither draws nor touches menu and handlers. -/
theorem post (h : FirmwareInv sys s) {q : EventQueue} {w : World Vars} (hq : QueueOk q)
    (hkeeps : AppKeeps [] s.ui.world w) (hserial : SerialOk w.rest.ser) :
    FirmwareInv sys { s with ui := { queue := q, world := w } } where
  ui := ⟨h.ui.inv.keeps hkeeps, hkeeps.bootloader.trans h.ui.running⟩
  icon := h.icon.keeps hkeeps List.not_mem_nil
  queue := hq
  serial := hserial
  client := h.client
  pcicr := h.pcicr

theorem ledKeepalive (h : FirmwareInv sys s) : FirmwareInv sys (ledKeepalive s) :=
  h.post h.queue (.setRest s.ui.world rfl rfl) h.serial

theorem processUsb (h : FirmwareInv sys s) (o : PostInc) (bank : List UInt8) :
    FirmwareInv sys (processUsb o bank s).1 := by
  obtain ⟨hserial, hposts⟩ := h.serial.process o bank
  exact h.post (h.queue.postLines hposts) (.setRest s.ui.world rfl rfl) hserial

/-- Another state of the converter. -/
theorem setKeypad (h : FirmwareInv sys s) (keypad : Keypad) :
    FirmwareInv sys { s with keypad := keypad } :=
  ⟨h.ui, h.icon, h.queue, h.serial, h.client, h.pcicr⟩

theorem clientCall (h : FirmwareInv sys s) (o : PostInc) (bank : List UInt8) (cb : TimetickCb) :
    FirmwareInv sys (clientCall o bank cb s).1 := by
  unfold RfPirate.clientCall
  split
  · exact h.ledKeepalive
  split
  · exact h.processUsb o bank
  split
  · exact h.setKeypad _
  split
  · exact h.setKeypad _
  · exact h

/-- The loop goes to its end. -/
theorem clientLoop (h : FirmwareInv sys s) (o : PostInc) (bank : List UInt8)
    (is : List ClientPtr) :
    ∃ r, clientLoop o bank is s = some r ∧ FirmwareInv sys r.1 := by
  induction is generalizing s with
  | nil => exact ⟨(s, []), rfl, h⟩
  | cons i is ih =>
      have hslot : SlotOk s.client i := h.client ▸ clients_sane i
      rw [RfPirate.clientLoop]
      split
      · exact ih h
      · rename_i cb hcb
        have hticks : (s.client i).ticks ≠ 0 := hslot (by rw [hcb]; simp)
        rw [if_neg hticks]
        split
        · obtain ⟨r, hrest, hinv⟩ := ih (h.clientCall o bank cb)
          refine ⟨_, Option.map_eq_some_iff.mpr ⟨r, hrest, rfl⟩, ?_⟩
          exact hinv
        · exact ih h

/-- The timer interrupt returns. -/
theorem timer (h : FirmwareInv sys s) (o : PostInc) (bank : List UInt8) :
    ∃ r, timerIsr o bank s = some r ∧ FirmwareInv sys r.1 := by
  obtain ⟨r, hloop, hinv⟩ := h.clientLoop o bank (List.finRange clientCnt)
  refine ⟨_, by rw [timerIsr, hloop]; rfl, ?_⟩
  exact ⟨hinv.ui, hinv.icon, hinv.queue, hinv.serial, hinv.client, hinv.pcicr⟩

/-- The end of a conversion. -/
theorem converted (h : FirmwareInv sys s) {val : UInt8} {k : Keypad} {out : List AdcObs}
    (hstep : adcStep s.keypad (.complete val) = some (k, out)) :
    FirmwareInv sys { s with
      keypad := k
      ui := { s.ui with queue := postAll s.ui.queue (out.map AdcObs.event) } } := by
  have hevents : ∀ e ∈ out.map AdcObs.event, EventOk e := fun e he => (complete_events hstep e he).1
  exact (h.post (h.queue.postAll hevents) (.refl [] s.ui.world) h.serial).setKeypad k

/-- A round that the firmware comes back from. -/
theorem round (h : FirmwareInv sys s) {rv : UInt8} {ui : UiState} {offers : List Offer}
    (hstep : uiStep sys tbl o s.ui (.dispatch rv) = some (ui, offers)) :
    FirmwareInv sys { s with ui := ui } := by
  have hok : IconOk s.ui (.dispatch rv) := fun _ e he =>
    rfEventLine_eq.mp (h.queue.round he).1.rfEventLine
  have hqueue : QueueOk ui.queue ∧ SerialOk ui.world.rest.ser := by
    cases hpending : s.ui.pending with
    | none =>
        simp only [uiStep, hpending] at hstep
        cases hstep
        exact ⟨h.queue, h.serial⟩
    | some e =>
        obtain ⟨w, hround, -, rfl⟩ := uiStep_dispatch_inv hpending hstep
        obtain ⟨he, hrest⟩ := h.queue.round hpending
        have hshared := h.ui.inv.round_shared he.start_stop.1 he.start_stop.2 hround
        have hser := hshared.sameRx
        refine ⟨hrest, ?_⟩
        split at hser <;> exact h.serial.congr hser.rxP hser.rxIdx
  exact
    { ui := uiStep_keeps h.ui hstep
      icon := h.icon.step h.ui hok hstep
      queue := hqueue.1
      serial := hqueue.2
      client := h.client
      pcicr := h.pcicr }

end FirmwareInv

/-- Every step keeps the invariant. -/
theorem firmwareStep_inv (h : FirmwareInv sys s)
    (hstep : firmwareStep sys tbl o s act = some (s', obs)) : FirmwareInv sys s' := by
  cases act with
  | timer bank =>
      obtain ⟨r, heq, hinv⟩ := h.timer o bank
      rw [firmwareStep, heq] at hstep
      cases hstep
      exact hinv
  | converted val =>
      obtain ⟨⟨k, out⟩, hadc, heq⟩ := Option.map_eq_some_iff.mp hstep
      cases heq
      exact h.converted hadc
  | pinChange =>
      rw [firmwareStep, if_pos (.inl (by rw [h.pcicr]; rfl))] at hstep
      cases hstep
  | radio regs =>
      cases hstep
      exact h.post h.queue (.setRegs s.ui.world _) h.serial
  | round rv =>
      obtain ⟨⟨ui, offers⟩, hround, heq⟩ := Option.map_eq_some_iff.mp hstep
      cases heq
      exact h.round hround

/-- `main` reaches its loop. -/
theorem boot_inv (sys : UInt16) (regs : RegFile) (mem : UsbSerial) :
    ∃ s, boot sys regs mem = some s ∧ FirmwareInv sys s := by
  obtain ⟨w, hsetup, hinit⟩ := uiSetup_inv sys regs (usbSerialCtor mem)
  refine ⟨_, by rw [boot, hsetup]; rfl, ?_⟩
  exact
    { ui := hinit
      icon := uiSetup_icon hsetup
      queue := QueueOk.zero
      serial := by
        rw [uiSetup_eq] at hsetup
        obtain ⟨cnt, oled, buf, -, rfl⟩ := drawMenu_eq hsetup
        exact ⟨(by decide : 0 < usbSerialBufSz - 1), Nat.zero_le rxDepth⟩
      client := rfl
      pcicr := rfl }

/-- So it holds in every state that a run reaches. -/
theorem firmwareRun_inv {regs : RegFile} {mem : UsbSerial} {s₀ : Firmware}
    {acts : List FirmwareAct} (hboot : boot sys regs mem = some s₀)
    (hrun : run (firmwareStep sys tbl o) s₀ acts = some (s, obs)) : FirmwareInv sys s := by
  obtain ⟨s₁, hboot', hinit⟩ := boot_inv sys regs mem
  rw [hboot] at hboot'
  cases hboot'
  have hkeeps : ∀ s (_ : List FirmwareObs) act s' obs, FirmwareInv sys s →
      firmwareStep sys tbl o s act = some (s', obs) → FirmwareInv sys s' :=
    fun _ _ _ _ _ h hstep => firmwareStep_inv h hstep
  exact run_induction hkeeps hinit hrun

end Invariant

/-! ### The way into the bootloader -/

/-- The next round gives `KEY_SELECT` to the menu, with the cursor on the entry "Bootloader". -/
def SelectsBootloader (sys : UInt16) (s : UiState) : Prop :=
  s.pending = some ⟨eventKeypress, keySelect.toUInt16⟩ ∧
    ∃ text, (firmware sys).entry s.world = .exec text jmpBootloaderFn

section Bootloader

variable {sys : UInt16} {tbl : CmdTable} {o : PostInc} {rv : UInt8} {e : EventT} {s : Firmware}
  {w w' : World Vars} {offers : List Offer}

theorem execute_bootloader {f : ExecFn} (hf : f ≠ jmpBootloaderFn) (w : World Vars) :
    (execute f w).rest.bootloader = w.rest.bootloader := by
  rw [execute, if_neg hf]
  split
  · rfl
  split
  · rfl
  split
  · rfl
  split
  · rfl
  split
  · rfl
  · rfl

/-- The menus of the applications do not lead there. -/
theorem UiInv.entered_of_bootloader (h : UiInv sys w) {text : Option CStr}
    (hentry : (firmware sys).entry w = .exec text jmpBootloaderFn) :
    entered (firmware sys) w = [] := by
  rw [h.entered_eq]
  match hidx : w.menu.stackIdx with
  | 0 => rfl
  | k + 1 =>
      exfalso
      have hmenu : w.cur.menu = mRfRoot ∨ w.cur.menu = mRfDebug := by
        have hlink := h.linked k (by omega)
        rw [h.cur_def, hidx]
        exact firmware_next hlink
      have hentries : ∀ e ∈ menuEntries w.cur.menu, ∀ text, e ≠ .exec text jmpBootloaderFn := by
        rcases hmenu with heq | heq
        · rw [heq]
          simp [menuEntries, mRfRoot, mRoot, jmpBootloaderFn, keeloq315TxFn, unmodCarrier315Fn,
            unmodCarrier434Fn, unmodCarrierOffFn]
        · rw [heq]
          simp [menuEntries, mRfDebug, mRfRoot, mRoot]
      rcases @firmware_menus sys w.cur.menu w.cur.selected with hlast | hmem
      · exact absurd (hlast.symm.trans hentry) (by simp)
      · exact hentries _ hmem text hentry

/-- The application that runs is not the base handler. -/
theorem UiInv.app_keeps (h : UiInv sys w) {cb : EventNotifyCb} {rv' : UInt8}
    (happ : entered (firmware sys) w = [cb])
    (hcall : callback tbl o (uiKeyHandler sys) rv cb e.event e.data w = some (rv', w')) :
    ∃ ls, AppKeeps ls w w' := by
  rcases callback_cases hcall with ⟨hcb, -⟩ | ⟨-, hkeeps⟩ | ⟨-, hkeeps⟩
  · rw [hcb] at happ
    rcases h.apps with heq | heq | heq <;> exact absurd (happ.symm.trans heq) (by decide)
  · exact ⟨_, hkeeps⟩
  · exact ⟨_, hkeeps⟩

/-- What the base handler makes of the control. -/
theorem uiEventNotify_bootloader (he : EventOk e) (hrunning : w.rest.bootloader = false)
    (hselect : ¬ (e = ⟨eventKeypress, keySelect.toUInt16⟩ ∧
      ∃ text, (firmware sys).entry w = .exec text jmpBootloaderFn))
    (h : uiEventNotify tbl o (uiKeyHandler sys) e.event e.data w = some (1, w')) :
    w'.rest.bootloader = false := by
  by_cases hkey : e.event = eventKeypress
  · rw [uiEventNotify, if_pos hkey] at h
    obtain ⟨w'', hmenu, heq⟩ := Option.map_eq_some_iff.mp h
    cases heq
    refine uiKeyHandler_keeps (fun v => v.bootloader = false) ?_ ?_ hrunning hmenu
    · exact fun cb event data w _ hw => (firmware_call_keeps cb event data w).bootloader.trans hw
    · intro text f hk hentry hw
      by_cases hf : f = jmpBootloaderFn
      · exfalso
        refine hselect ⟨?_, text, hf ▸ hentry⟩
        cases he with
        | key hk' => rw [← hk, UInt8.toUInt8_toUInt16]
        | vbatt hval =>
            have hcode : eventVbatt = eventKeypress := hkey
            exact absurd hcode (by decide)
        | line hp =>
            have hcode : eventSerialRecv = eventKeypress := hkey
            exact absurd hcode (by decide)
      · exact (execute_bootloader hf w).trans hw
  · exact (uiEventNotify_keeps hkey h).2.bootloader.trans hrunning

/-- `KEY_SELECT` executes the function of the entry under the cursor, if it has one. -/
theorem uiKeyHandler_select (h : uiKeyHandler sys keySelect w = some w') :
    w'.rest = (keySelectCase (firmware sys) w).rest := by
  obtain ⟨⟨w₂, offers⟩, hkey, rfl⟩ := Option.map_eq_some_iff.mp h
  have hcase : keyCase (firmware sys) maxHandlers keySelect w =
      some (keySelectCase (firmware sys) w, []) := by
    rw [keyCase, if_neg (by decide), if_neg (by decide), if_neg (by decide), if_neg (by decide),
      if_pos rfl]
  simp only [keyHandler, hcase] at hkey
  split at hkey
  · cases hkey
  · rename_i hdraw
    cases hkey
    obtain ⟨cnt, oled, buf, -, rfl⟩ := drawMenu_eq hdraw
    rfl

/-- On the entry "Bootloader" it jumps there. -/
theorem uiKeyHandler_bootloader {text : Option CStr}
    (hentry : (firmware sys).entry w = .exec text jmpBootloaderFn)
    (h : uiKeyHandler sys keySelect w = some w') : w'.rest.bootloader = true := by
  rw [uiKeyHandler_select h, keySelectCase, hentry]
  rfl

/-- The next round has to parse a line, and the parse does not return. -/
def StopsAtLine (tbl : CmdTable) (s : UiState) : Prop :=
  ∃ e, s.pending = some e ∧ e.event = eventSerialRecv ∧
    ¬ Parses tbl (s.world.rest.ser.rxQ e.data.toNat)

/-- A round that goes to its end comes back, unless it selects that entry. -/
theorem FirmwareInv.round_bootloader_iff (h : FirmwareInv sys s) (hpending : s.ui.pending = some e)
    (hround : dispatchEvent sys tbl o rv e s.ui.world = some (w', offers)) :
    w'.rest.bootloader = true ↔ SelectsBootloader sys s.ui := by
  have hparts := h.ui.inv.round_parts hround
  constructor
  · intro hboot
    by_contra hnot
    have hselect : ¬ (e = ⟨eventKeypress, keySelect.toUInt16⟩ ∧
        ∃ text, (firmware sys).entry s.ui.world = .exec text jmpBootloaderFn) :=
      fun hboth => hnot ⟨hboth.1 ▸ hpending, hboth.2⟩
    have he := (h.queue.round hpending).1
    have hfalse : w'.rest.bootloader = false := by
      cases hparts with
      | base call => exact uiEventNotify_bootloader he h.ui.running hselect call
      | consumed app call ne =>
          obtain ⟨ls, hkeeps⟩ := h.ui.inv.app_keeps app call
          exact hkeeps.bootloader.trans h.ui.running
      | passed app call base =>
          obtain ⟨ls, hkeeps⟩ := h.ui.inv.app_keeps app call
          refine uiEventNotify_bootloader he (hkeeps.bootloader.trans h.ui.running) ?_ base
          rw [hkeeps.stack.entry_eq]
          exact hselect
    rw [hfalse] at hboot
    cases hboot
  · rintro ⟨hselect, text, hentry⟩
    obtain rfl : e = ⟨eventKeypress, keySelect.toUInt16⟩ :=
      Option.some.inj (hpending.symm.trans hselect)
    have hnil := h.ui.inv.entered_of_bootloader hentry
    cases hparts with
    | base call =>
        rw [uiEventNotify, if_pos rfl] at call
        obtain ⟨w'', hmenu, heq⟩ := Option.map_eq_some_iff.mp call
        cases heq
        exact uiKeyHandler_bootloader hentry hmenu
    | consumed app call ne => cases hnil.symm.trans app
    | passed app call base => cases hnil.symm.trans app

/-- A round does not come back if and only if it selects that entry or stops at a line. -/
theorem FirmwareInv.round_none_iff (h : FirmwareInv sys s) (tbl : CmdTable) (o : PostInc)
    (rv : UInt8) :
    firmwareStep sys tbl o s (.round rv) = none ↔
      SelectsBootloader sys s.ui ∨ StopsAtLine tbl s.ui := by
  have hnone : firmwareStep sys tbl o s (.round rv) = none ↔
      uiStep sys tbl o s.ui (.dispatch rv) = none := Option.map_eq_none_iff
  rw [hnone]
  cases hpending : s.ui.pending with
  | none =>
      refine iff_of_false (by simp [uiStep, hpending]) ?_
      rintro (⟨hselect, -⟩ | ⟨e, hline, -⟩)
      · cases hpending.symm.trans hselect
      · cases hpending.symm.trans hline
  | some e =>
      have hstops : StopsAtLine tbl s.ui ↔ dispatchEvent sys tbl o rv e s.ui.world = none := by
        by_cases hline : e.event = eventSerialRecv
        · rw [h.ui.inv.dispatch_line hline]
          constructor
          · rintro ⟨e', hpending', -, hstop⟩
            obtain rfl := Option.some.inj (hpending.symm.trans hpending')
            exact hstop
          · exact fun hstop => ⟨e, hpending, hline, hstop⟩
        · obtain ⟨w', offers, hround⟩ := h.ui.inv.dispatch tbl o rv hline
          refine iff_of_false ?_ (by rw [hround]; simp)
          rintro ⟨e', hpending', hline', -⟩
          obtain rfl := Option.some.inj (hpending.symm.trans hpending')
          exact hline hline'
      rw [hstops]
      cases hround : dispatchEvent sys tbl o rv e s.ui.world with
      | none => exact iff_of_true (by simp [uiStep, hpending, hround]) (.inr rfl)
      | some r =>
          obtain ⟨w', offers⟩ := r
          rw [← h.round_bootloader_iff hpending hround]
          simp only [uiStep, hpending, hround]
          cases w'.rest.bootloader <;> simp

end Bootloader

/-- From `main` on, whatever is received and converted, whenever the interrupts come and whatever an
    unassigned variable holds: in every state that is reached, the timer interrupt and the end of
    the running conversion return, the radio has no interrupt, and a round of the dispatcher
    returns, unless it gives `KEY_SELECT` to the menu with the cursor on "Bootloader" or gives a
    line to a parse that does not return. With the table that `cmdp_init` leaves these are all
    rounds with a line. -/
theorem firmware_progress (sys : UInt16) (tbl : CmdTable) (o : PostInc) (regs : RegFile)
    (mem : UsbSerial) :
    ∃ s₀, boot sys regs mem = some s₀ ∧ ∀ acts s obs,
      run (firmwareStep sys tbl o) s₀ acts = some (s, obs) →
        (∀ bank, (firmwareStep sys tbl o s (.timer bank)).isSome) ∧
        (∀ val, (firmwareStep sys tbl o s (.converted val)).isSome ↔
          s.keypad.conversion.isSome) ∧
        firmwareStep sys tbl o s .pinChange = none ∧
        (∀ rv, firmwareStep sys tbl o s (.round rv) = none ↔
          SelectsBootloader sys s.ui ∨ StopsAtLine tbl s.ui) ∧
        (tbl = cmdTbl → (StopsAtLine tbl s.ui ↔
          ∃ e, s.ui.pending = some e ∧ e.event = eventSerialRecv)) := by
  obtain ⟨s₀, hboot, -⟩ := boot_inv sys regs mem
  refine ⟨s₀, hboot, fun acts s obs hrun => ?_⟩
  have hinv := firmwareRun_inv hboot hrun
  refine ⟨fun bank => ?_, fun val => ?_, ?_, fun rv => hinv.round_none_iff tbl o rv, ?_⟩
  · obtain ⟨r, heq, -⟩ := hinv.timer o bank
    rw [firmwareStep, heq]
    rfl
  · rw [firmwareStep, Option.isSome_map, adcStep]
    cases s.keypad.conversion <;> simp
  · rw [firmwareStep, if_pos (.inl (by rw [hinv.pcicr]; rfl))]
  · rintro rfl
    constructor
    · rintro ⟨e, hpending, hline, -⟩
      exact ⟨e, hpending, hline⟩
    · rintro ⟨e, hpending, hline⟩
      exact ⟨e, hpending, hline, not_parses_cmdTbl _⟩

end RfPirate
