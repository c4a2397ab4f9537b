/-
Module: RfPirate.Proofs.FirmwareHardware
Layer: Proofs
Purpose: Who switches what. Besides the radio itself, only what the user selects in the menus
  changes the registers of the radio and the pin that holds the power: entering an application
  probes the radio, and `KEY_SELECT` executes the function of an entry. So the transmitter is on if
  and only if a carrier was selected and nothing selected after it turned it off.
Main exports: Hardware, Operation, menuOperation, hardwareStep, firmware_hardware, Hardware.OnAir,
  CarrierStands, firmware_onAir
-/
import RfPirate.Lib.Simulation
import RfPirate.Proofs.FirmwareEvents

namespace RfPirate

open Lib Lib.Machine

/-! ### Operations -/

/-- What the firmware controls and knows of the radio, and the pin that holds the power. -/
structure Hardware where
  regs : RegFile
  rfInitialized : Bool
  pshold : Bool

def Vars.hardware (v : Vars) : Hardware := ⟨v.regs, v.rfInitialized, v.pshold⟩

/-- A world with this hardware. -/
def Hardware.world (h : Hardware) : World Vars :=
  (uiZero h.regs .zero).setRest fun v =>
    { v with rfInitialized := h.rfInitialized, pshold := h.pshold }

/-- Operations on it: an application that starts and probes the radio, a function that the menu
    executes, and the radio moving by itself. -/
inductive Operation where
  | probe
  | exec (f : ExecFn)
  | moved (regs : RegFile)

def Operation.apply (h : Hardware) : Operation → Hardware
  | .probe => h.world.probe.rest.hardware
  | .exec f => (execute f h.world).rest.hardware
  | .moved regs => { h with regs := regs }

/-- The operations in order. -/
def Hardware.applyAll (h : Hardware) (ops : List Operation) : Hardware :=
  ops.foldl Operation.apply h

/-- What a key that reaches the menu does. -/
def menuOperation (sys : UInt16) (w : World Vars) (k : UInt8) : Option Operation :=
  match (firmware sys).entry w with
  | .evtHdl _ _ _ => if k = keyRight then some .probe else none
  | .exec _ f => if k = keySelect then some (.exec f) else none
  | _ => none

/-- The operation of a step, from the state before it and the events that its round gives to the
    base handler. -/
def operation (sys : UInt16) (s : Firmware) (obs : List FirmwareObs) :
    FirmwareAct → Option Operation
  | .radio regs => some (.moved regs)
  | .round _ =>
      match handled obs with
      | [e] =>
          if e.event = eventKeypress then menuOperation sys s.ui.world e.data.toUInt8 else none
      | _ => none
  | _ => none

/-- The firmware with its operations as the observations. -/
def hardwareStep (sys : UInt16) (tbl : CmdTable) (o : PostInc) :
    Machine.Step Firmware FirmwareAct Operation :=
  fun s act => (firmwareStep sys tbl o s act).map fun r => (r.1, (operation sys s r.2 act).toList)

/-! ### What functions do to the hardware -/

section Functions

variable {sys : UInt16} {tbl : CmdTable} {o : PostInc} {w w' : World Vars}

theorem execute_hardware (f : ExecFn) (w : World Vars) :
    (execute f w).rest.hardware = Operation.apply w.rest.hardware (.exec f) := by
  show (execute f w).rest.hardware = (execute f w.rest.hardware.world).rest.hardware
  unfold execute
  split
  · rfl
  split
  · rfl
  split
  · rfl
  split
  · rfl
  split
  · rfl
  split <;> rfl

/-- The applications do nothing but probe, and only when they start. -/
theorem rfEventNotify_hardware (event : UInt8) (data : UInt16) (w : World Vars) :
    (rfEventNotify event data w).2.rest.hardware =
      if event = eventAppStart then w.probe.rest.hardware else w.rest.hardware := by
  obtain ⟨led, hrest⟩ := rfEventNotify_rest event data w
  rw [hrest]
  split <;> rfl

theorem rfDebugNotify_hardware (rv event : UInt8) (data : UInt16) (w : World Vars) :
    (rfDebugNotify rv event data w).2.rest.hardware =
      if event = eventAppStart then w.probe.rest.hardware else w.rest.hardware := by
  obtain ⟨regAddr, hrest⟩ := rfDebugNotify_rest rv event data w
  rw [hrest]
  split <;> rfl

/-- The base handler leaves the hardware to the menu. -/
theorem uiEventNotify_hardware {menuKeyHandler : UInt8 → World Vars → Option (World Vars)}
    {event : UInt8} {data : UInt16} {r : UInt8 × World Vars} (hkey : event ≠ eventKeypress)
    (h : uiEventNotify tbl o menuKeyHandler event data w = some r) :
    r.2.rest.hardware = w.rest.hardware := by
  obtain ⟨battIcon, ser, hrest⟩ := uiEventNotify_rest hkey h
  rw [hrest]
  rfl

/-- An application that starts probes. -/
theorem firmware_call_start {cb : EventNotifyCb} (hcb : cb = rfEventNotifyCb ∨ cb = rfDebugNotifyCb)
    (data : UInt16) (w : World Vars) :
    ((firmware sys).call cb eventAppStart data w).2.rest.hardware = w.probe.rest.hardware := by
  obtain ⟨led, regAddr, hrest⟩ := @firmware_call_rest sys eventAppStart (.inl rfl) cb data w
  rw [if_pos ⟨rfl, hcb⟩] at hrest
  rw [hrest]
  rfl

/-- Nobody touches the hardware when an application stops. -/
theorem firmware_call_stop (cb : EventNotifyCb) (data : UInt16) (w : World Vars) :
    ((firmware sys).call cb eventAppStop data w).2.rest.hardware = w.rest.hardware := by
  obtain ⟨led, regAddr, hrest⟩ := @firmware_call_rest sys eventAppStop (.inr rfl) cb data w
  rw [if_neg fun hand => absurd hand.1 (by decide)] at hrest
  rw [hrest]
  rfl

end Functions

/-! ### Keys -/

section Keys

variable {sys : UInt16} {w w' : World Vars} {k : UInt8}

theorem applyAll_none (h : Hardware) : h.applyAll (none : Option Operation).toList = h := rfl

theorem menuOperation_none (hright : k ≠ keyRight) (hselect : k ≠ keySelect) :
    menuOperation sys w k = none := by
  unfold menuOperation
  split
  · exact if_neg hright
  · exact if_neg hselect
  · rfl

theorem menuOperation_right :
    menuOperation sys w keyRight =
      if ((firmware sys).entry w).evtHandler?.isSome then some .probe else none := by
  unfold menuOperation
  split
  · rename_i heq
    rw [if_pos rfl, heq]
    rfl
  · rename_i heq
    rw [if_neg (by decide), heq]
    rfl
  · rename_i hevt hexec
    cases hentry : (firmware sys).entry w with
    | evtHdl text next cb => exact absurd hentry (hevt text next cb)
    | _ => rfl

theorem keySelectCase_hardware (sys : UInt16) (w : World Vars) :
    (keySelectCase (firmware sys) w).rest.hardware =
      w.rest.hardware.applyAll (menuOperation sys w keySelect).toList := by
  unfold keySelectCase menuOperation
  split
  · rename_i text f hentry
    simp only [hentry, if_true]
    exact execute_hardware f w
  · rename_i hexec
    cases hentry : (firmware sys).entry w with
    | exec text f => exact absurd hentry (hexec text f)
    | _ => rfl

/-- An application is entered. -/
theorem enterApp_hardware (h : UiInv sys w) {text : Option CStr} {next : MenuPtr}
    {cb : Option EventNotifyCb} {w₂ : World Vars} {offers : List Offer}
    (hentry : (firmware sys).entry w = .evtHdl text next cb)
    (hstart : evtHandlerSyncevent (firmware sys).callbacks eventAppStart (firmware sys).sys
      maxHandlers (startApp cb w) = some (w₂, offers)) :
    w₂.rest.hardware = w.probe.rest.hardware := by
  obtain ⟨c, -, hc, rfl⟩ := h.enterApp_call hentry hstart
  have hcb : c = rfEventNotifyCb ∨ c = rfDebugNotifyCb := hc.imp And.left And.left
  exact firmware_call_start hcb sys (startApp (some c) w)

/-- A key that the menu handles. -/
theorem uiKeyHandler_hardware (h : UiInv sys w) (hmenu : uiKeyHandler sys k w = some w') :
    w'.rest.hardware = w.rest.hardware.applyAll (menuOperation sys w k).toList := by
  by_cases hselect : k = keySelect
  · subst hselect
    rw [uiKeyHandler_select hmenu]
    exact keySelectCase_hardware sys w
  obtain ⟨⟨w₂, offers⟩, hkey, rfl⟩ := Option.map_eq_some_iff.mp hmenu
  obtain ⟨w₁, heffect, hdraw⟩ := keyHandler_effect hkey
  obtain ⟨cnt, oled, buf, -, rfl⟩ := drawMenu_eq hdraw
  show w₁.rest.hardware = _
  by_cases hright : k = keyRight
  · subst hright
    rw [menuOperation_right]
    cases heffect with
    | right case =>
        cases keyRightCase_effect case with
        | openDrop closed eq =>
            subst eq
            have hdrop : ((firmware sys).entry w).isDropdown = true :=
              (Bool.and_eq_true_iff.mp closed).1
            cases hentry : (firmware sys).entry w with
            | evtHdl text next cb => rw [hentry] at hdrop; cases hdrop
            | _ => rfl
        | enter entry eq => rw [eq, entry]; rfl
        | enterApp entry start sub eq =>
            have hprobe := enterApp_hardware h entry start
            rw [eq, entry]
            exact hprobe
        | nothing leaf eq =>
            cases hentry : (firmware sys).entry w with
            | evtHdl text next cb => rw [hentry] at leaf; cases leaf
            | _ => rw [eq]; rfl
    | other up down left right eq => exact absurd rfl right
  · rw [menuOperation_none hright hselect, applyAll_none]
    cases heffect with
    | up eq =>
        subst eq
        unfold keyUpCase
        split <;> rfl
    | down eq =>
        subst eq
        unfold keyDownCase
        split
        · rfl
        split <;> rfl
    | left case =>
        cases keyLeftCase_effect case with
        | close opened eq => rw [eq]; rfl
        | root closed idx eq => rw [eq]
        | leave closed idx unset eq => rw [eq]; rfl
        | leaveApp closed idx set stop eq =>
            subst eq
            have hcalls : ∀ cb (w₁ : World Vars), w₁.rest.hardware = w.rest.hardware →
                ((firmware sys).callbacks.call cb eventAppStop 0 w₁).2.rest.hardware =
                  w.rest.hardware :=
              fun cb w₁ heq => (@firmware_call_stop sys cb 0 w₁).trans heq
            exact @syncevent_keeps _ _ _ _ (fun w₁ => w₁.rest.hardware = w.rest.hardware) _ _ _ _
              hcalls stop rfl
    | right case => exact absurd rfl hright
    | select eq => exact absurd rfl hselect
    | other up down left right eq => rw [eq]

end Keys

/-! ### Steps -/

section Steps

variable {sys : UInt16} {tbl : CmdTable} {o : PostInc} {rv : UInt8} {s s' : Firmware}
  {act : FirmwareAct} {ops ops' : List Operation}

def Firmware.hardware (s : Firmware) : Hardware := s.ui.world.rest.hardware

/-- The clients of the timer do not touch the hardware. -/
theorem clientCall_hardware (o : PostInc) (bank : List UInt8) (cb : TimetickCb) (s : Firmware) :
    (clientCall o bank cb s).1.hardware = s.hardware := by
  unfold clientCall
  split
  · rfl
  split
  · rfl
  split
  · rfl
  split <;> rfl

theorem clientLoop_hardware {bank : List UInt8} {is : List ClientPtr}
    {r : Firmware × List FirmwareObs} (h : clientLoop o bank is s = some r) :
    r.1.hardware = s.hardware := by
  have hcall : ∀ s₁ (_ : List FirmwareObs) (_ : ClientPtr) cb, s₁.hardware = s.hardware →
      (clientCall o bank cb s₁).1.hardware = s.hardware :=
    fun s₁ _ _ cb h₁ => (clientCall_hardware o bank cb s₁).trans h₁
  exact @clientLoop_keeps o s [] (fun s₁ _ => s₁.hardware = s.hardware) bank hcall is r rfl h

/-- The application that runs leaves it alone, too. -/
theorem UiInv.app_hardware {e : EventT} {w w' : World Vars} (h : UiInv sys w) {cb : EventNotifyCb}
    {rv' : UInt8} (happ : entered (firmware sys) w = [cb])
    (hcall : callback tbl o (uiKeyHandler sys) rv cb e.event e.data w = some (rv', w'))
    (he : EventOk e) : cb ≠ uiEventNotifyCb ∧ w'.rest.hardware = w.rest.hardware := by
  have hstart : e.event ≠ eventAppStart := by
    rcases he.code with heq | heq | heq <;> rw [heq] <;> decide
  rcases h.apps with heq | heq | heq
  · cases heq.symm.trans happ
  · cases heq.symm.trans happ
    have hrf : rfEventNotify e.event e.data w = (rv', w') := Option.some.inj hcall
    have hsame := rfEventNotify_hardware e.event e.data w
    rw [hrf, if_neg hstart] at hsame
    exact ⟨by decide, hsame⟩
  · cases heq.symm.trans happ
    have hdebug : rfDebugNotify rv e.event e.data w = (rv', w') := Option.some.inj hcall
    have hsame := rfDebugNotify_hardware rv e.event e.data w
    rw [hdebug, if_neg hstart] at hsame
    exact ⟨by decide, hsame⟩

/-- A round. The application sees the event first, and leaves the hardware alone. -/
theorem FirmwareInv.round_hardware (h : FirmwareInv sys s) {obs : List FirmwareObs}
    (hstep : firmwareStep sys tbl o s (.round rv) = some (s', obs)) :
    s'.hardware = s.hardware.applyAll (operation sys s obs (.round rv)).toList := by
  obtain ⟨⟨ui, offers⟩, hround, heq⟩ := Option.map_eq_some_iff.mp hstep
  cases heq
  cases hpending : s.ui.pending with
  | none =>
      simp only [uiStep, hpending] at hround
      cases hround
      rfl
  | some e =>
      have he := (h.queue.round hpending).1
      obtain ⟨w', hdispatch, -, rfl⟩ := uiStep_dispatch_inv hpending hround
      have hbase : ∀ {w}, UiInv sys w → SameStack s.ui.world w →
          w.rest.hardware = s.ui.world.rest.hardware →
          uiEventNotify tbl o (uiKeyHandler sys) e.event e.data w = some (1, w') →
          w'.rest.hardware = s.hardware.applyAll
            (if e.event = eventKeypress then menuOperation sys s.ui.world e.data.toUInt8
              else none).toList := by
        intro w hinv hsame heq hcall
        by_cases hkey : e.event = eventKeypress
        · rw [uiEventNotify, if_pos hkey] at hcall
          obtain ⟨w'', hmenu, hw''⟩ := Option.map_eq_some_iff.mp hcall
          cases hw''
          have hoperation : menuOperation sys w e.data.toUInt8 =
              menuOperation sys s.ui.world e.data.toUInt8 := by
            rw [menuOperation, hsame.entry_eq, menuOperation]
          rw [if_pos hkey, uiKeyHandler_hardware hinv hmenu, hoperation, heq]
          rfl
        · rw [if_neg hkey, applyAll_none]
          exact (uiEventNotify_hardware hkey hcall).trans heq
      cases h.ui.inv.round_parts hdispatch with
      | base call => exact hbase h.ui.inv (.refl s.ui.world) rfl call
      | @consumed cb rv' app call ne =>
          obtain ⟨hcb, hsame⟩ := h.ui.inv.app_hardware app call he
          have hnone : handled ([⟨cb, e.event, e.data⟩].map FirmwareObs.offered) = [] := by
            simp [handled, FirmwareObs.handled?, hcb]
          rw [operation, hnone]
          exact hsame
      | @passed cb w₁ app call base =>
          obtain ⟨hcb, hsame⟩ := h.ui.inv.app_hardware app call he
          obtain ⟨ls, hkeeps⟩ := h.ui.inv.app_keeps app call
          have hone : handled ([⟨cb, e.event, e.data⟩, ⟨uiEventNotifyCb, e.event, e.data⟩].map
              FirmwareObs.offered) = [e] := by
            simp [handled, FirmwareObs.handled?, hcb]
          rw [operation, hone]
          exact hbase (h.ui.inv.keeps hkeeps) hkeeps.stack hsame base

/-- Every step does to the hardware what its operation says. -/
theorem hardwareStep_hardware (h : FirmwareInv sys s)
    (hstep : hardwareStep sys tbl o s act = some (s', ops)) :
    FirmwareInv sys s' ∧ s'.hardware = s.hardware.applyAll ops := by
  obtain ⟨⟨s', obs⟩, hfirm, heq⟩ := Option.map_eq_some_iff.mp hstep
  cases heq
  refine ⟨firmwareStep_inv h hfirm, ?_⟩
  cases act with
  | timer bank =>
      obtain ⟨r, hloop, heq⟩ := Option.map_eq_some_iff.mp hfirm
      cases heq
      have hsame := clientLoop_hardware hloop
      exact hsame
  | converted val =>
      obtain ⟨r, -, heq⟩ := Option.map_eq_some_iff.mp hfirm
      cases heq
      rfl
  | pinChange =>
      rw [firmwareStep, if_pos (.inl (by rw [h.pcicr]; rfl))] at hfirm
      cases hfirm
  | radio regs =>
      cases hfirm
      rfl
  | round rv => exact h.round_hardware hfirm

theorem applyAll_append (h : Hardware) (ops ops' : List Operation) :
    h.applyAll (ops ++ ops') = (h.applyAll ops).applyAll ops' := List.foldl_append

/-- The power is let go by one function only, and not taken again. -/
theorem apply_pshold (h : Hardware) (op : Operation) :
    (op.apply h).pshold = true ↔ h.pshold = true ∧ .exec shutdownFn ≠ op := by
  cases op with
  | probe => simp [Operation.apply, Hardware.world, Vars.hardware, World.probe, World.setRest]
  | moved regs => simp [Operation.apply]
  | exec f =>
      by_cases hf : f = shutdownFn
      · subst hf
        refine iff_of_false ?_ fun hand => hand.2 rfl
        show ¬ false = true
        decide
      · have hne : Operation.exec shutdownFn ≠ .exec f := fun heq =>
          hf (Operation.exec.inj heq).symm
        have hsame : (Operation.apply h (.exec f)).pshold = h.pshold := by
          show (execute f h.world).rest.pshold = h.pshold
          rw [execute, if_neg hf]
          split
          · rfl
          split
          · rfl
          split
          · rfl
          split
          · rfl
          split <;> rfl
        rw [hsame, and_iff_left hne]

theorem applyAll_pshold (h : Hardware) :
    (h.applyAll ops).pshold = true ↔ h.pshold = true ∧ .exec shutdownFn ∉ ops := by
  induction ops generalizing h with
  | nil => simp [Hardware.applyAll]
  | cons op ops ih =>
      have hcons : h.applyAll (op :: ops) = (op.apply h).applyAll ops := rfl
      rw [hcons, ih, apply_pshold, List.mem_cons, not_or, and_assoc]

theorem boot_hardware {regs : RegFile} {mem : UsbSerial} (h : boot sys regs mem = some s) :
    s.hardware = ⟨regs, false, true⟩ := by
  unfold boot at h
  obtain ⟨w, hsetup, rfl⟩ := Option.map_eq_some_iff.mp h
  rw [uiSetup_eq] at hsetup
  obtain ⟨cnt, oled, buf, -, rfl⟩ := drawMenu_eq hsetup
  rfl

end Steps

/-- In every run of the firmware the registers of the radio, what the firmware knows of it and the
    pin that holds the power are what the operations make of them, one after the other: the radio
    moving by itself, a probe for each application entered, and the functions of the entries that
    `KEY_SELECT` finds under the cursor of the menu. So the power is held until "Shutdown" is
    selected. -/
theorem firmware_hardware (sys : UInt16) (tbl : CmdTable) (o : PostInc) (regs : RegFile)
    (mem : UsbSerial) :
    ∃ s₀, boot sys regs mem = some s₀ ∧ s₀.hardware = ⟨regs, false, true⟩ ∧ ∀ acts s ops,
      run (hardwareStep sys tbl o) s₀ acts = some (s, ops) →
        s.hardware = s₀.hardware.applyAll ops ∧
        (s.hardware.pshold = true ↔ .exec shutdownFn ∉ ops) := by
  obtain ⟨s₀, hboot, hinit⟩ := boot_inv sys regs mem
  have hhardware : s₀.hardware = ⟨regs, false, true⟩ := boot_hardware hboot
  refine ⟨s₀, hboot, hhardware, fun acts s ops hrun => ?_⟩
  have hkeeps : ∀ s ops act s' ops', FirmwareInv sys s ∧ s.hardware = s₀.hardware.applyAll ops →
      hardwareStep sys tbl o s act = some (s', ops') →
        FirmwareInv sys s' ∧ s'.hardware = s₀.hardware.applyAll (ops ++ ops') := by
    rintro s ops act s' ops' ⟨hinv, heq⟩ hstep
    obtain ⟨hinv', heq'⟩ := hardwareStep_hardware hinv hstep
    exact ⟨hinv', by rw [heq', heq, applyAll_append]⟩
  obtain ⟨-, heq⟩ := run_induction hkeeps ⟨hinit, rfl⟩ hrun
  refine ⟨heq, ?_⟩
  rw [heq, applyAll_pshold, hhardware]
  exact and_iff_right rfl

/-! ### The transmitter -/

/-- Bit 3 of register 7 turns the transmitter on. -/
def Hardware.OnAir (h : Hardware) : Prop := h.regs 7 &&& 0x8 ≠ 0

instance Hardware.OnAir.decidable (h : Hardware) : Decidable h.OnAir :=
  inferInstanceAs (Decidable (h.regs 7 &&& 0x8 ≠ 0))

/-- The selections that turn it on. -/
def Operation.IsCarrier (op : Operation) : Prop :=
  op = .exec unmodCarrier315Fn ∨ op = .exec unmodCarrier434Fn

/-- A carrier was selected and stands: since then neither "Carrier Off" nor "Keeloq TX" was
    selected, and no application was entered that still had to reset the radio. -/
def CarrierStands (h : Hardware) (ops : List Operation) : Prop :=
  ∃ before op after, ops = before ++ op :: after ∧ op.IsCarrier ∧
    .exec unmodCarrierOffFn ∉ after ∧ .exec keeloq315TxFn ∉ after ∧
    (.probe ∈ after → (h.applyAll before).rfInitialized = true)

/-- What does not turn it off, where it is applied. -/
structure Operation.LeavesOn (op : Operation) (h : Hardware) : Prop where
  off : .exec unmodCarrierOffFn ≠ op
  keeloq : .exec keeloq315TxFn ≠ op
  probe : .probe = op → h.rfInitialized = true

section OnAir

variable {h : Hardware} {op : Operation} {ops : List Operation}

theorem apply_onAir_carrier (hop : op.IsCarrier) : (op.apply h).OnAir := by
  have hnine : (9 : UInt8) &&& 0x8 ≠ 0 := by decide
  rcases hop with rfl | rfl
  · exact hnine
  · exact hnine

/-- Anything else leaves the transmitter on or turns it off, unless the radio moves the bit. -/
theorem apply_onAir (hop : ¬ op.IsCarrier)
    (hquiet : ∀ regs, op = .moved regs → (regs 7 &&& 0x8 ≠ 0 ↔ h.OnAir)) :
    (op.apply h).OnAir ↔ h.OnAir ∧ op.LeavesOn h := by
  cases op with
  | probe =>
      have hprobe : Operation.LeavesOn .probe h ↔ h.rfInitialized = true :=
        ⟨fun hop => hop.probe rfl, fun hinit => ⟨Operation.noConfusion, Operation.noConfusion,
          fun _ => hinit⟩⟩
      rw [hprobe]
      cases hinit : h.rfInitialized with
      | true =>
          have hsame : (Operation.probe.apply h).regs = h.regs := by
            show (rfProbe h.rfInitialized h.regs).2.2 = h.regs
            rw [hinit]
            rfl
          rw [Hardware.OnAir, hsame, and_iff_left rfl]
          rfl
      | false =>
          have hreset : (Operation.probe.apply h).regs 7 = 0x80 := by
            show (rfProbe h.rfInitialized h.regs).2.2 7 = 0x80
            rw [hinit, rfProbe, if_neg (by decide)]
            simp only
            split
            · rfl
            split <;> rfl
          rw [Hardware.OnAir, hreset]
          exact iff_of_false (by decide) (by simp)
  | exec f =>
      by_cases hoff : f = unmodCarrierOffFn
      · subst hoff
        have hone : ¬ ((1 : UInt8) &&& 0x8 ≠ 0) := by decide
        exact iff_of_false hone fun hand => hand.2.off rfl
      by_cases hkeeloq : f = keeloq315TxFn
      · subst hkeeloq
        have hone : ¬ ((9 : UInt8) &&& ~~~0x8 &&& 0x8 ≠ 0) := by decide
        exact iff_of_false hone fun hand => hand.2.keeloq rfl
      have h315 : f ≠ unmodCarrier315Fn := fun heq => hop (.inl (congrArg Operation.exec heq))
      have h434 : f ≠ unmodCarrier434Fn := fun heq => hop (.inr (congrArg Operation.exec heq))
      have hsame : (Operation.apply h (.exec f)).regs = h.regs := by
        show (execute f h.world).rest.regs = h.regs
        rw [execute, if_neg hoff, if_neg hkeeloq, if_neg h315, if_neg h434]
        split
        · rfl
        split <;> rfl
      have hleaves : Operation.LeavesOn (.exec f) h :=
        ⟨fun heq => hoff (Operation.exec.inj heq).symm,
          fun heq => hkeeloq (Operation.exec.inj heq).symm, Operation.noConfusion⟩
      rw [Hardware.OnAir, hsame, and_iff_left hleaves]
      rfl
  | moved regs =>
      have hleaves : (Operation.moved regs).LeavesOn h :=
        ⟨Operation.noConfusion, Operation.noConfusion, Operation.noConfusion⟩
      rw [and_iff_left hleaves]
      exact hquiet regs rfl

/-- What the firmware knows of the radio changes with a probe only, and is not forgotten. -/
theorem apply_rfInitialized (hop : .probe ≠ op) : (op.apply h).rfInitialized = h.rfInitialized := by
  cases op with
  | probe => exact absurd rfl hop
  | moved regs => rfl
  | exec f =>
      obtain ⟨regs, pshold, bootloader, hrest⟩ := execute_rest f h.world
      show (execute f h.world).rest.rfInitialized = h.rfInitialized
      rw [hrest]
      rfl

theorem applyAll_rfInitialized (hops : .probe ∉ ops) :
    (h.applyAll ops).rfInitialized = h.rfInitialized := by
  induction ops generalizing h with
  | nil => rfl
  | cons op ops ih =>
      obtain ⟨hop, hrest⟩ := not_or.mp (mt List.mem_cons.mpr hops)
      exact (ih hrest).trans (apply_rfInitialized hop)

theorem applyAll_initialized (hinit : h.rfInitialized = true) :
    (h.applyAll ops).rfInitialized = true := by
  induction ops generalizing h with
  | nil => exact hinit
  | cons op ops ih =>
      refine ih ?_
      by_cases hop : .probe = op
      · subst hop
        show (rfProbe h.rfInitialized h.regs).2.1 = true
        rw [hinit]
        rfl
      · rw [apply_rfInitialized hop, hinit]

/-- One more operation. -/
theorem carrierStands_concat (hop : ¬ op.IsCarrier) :
    CarrierStands h (ops ++ [op]) ↔ CarrierStands h ops ∧ op.LeavesOn (h.applyAll ops) := by
  constructor
  · rintro ⟨before, carrier, after, heq, hcarrier, hoff, hkeeloq, hprobe⟩
    rcases List.eq_nil_or_concat after with rfl | ⟨after', op', rfl⟩
    · obtain ⟨-, rfl⟩ := List.append_singleton_inj.mp heq
      exact absurd hcarrier hop
    · rw [List.concat_eq_append, ← List.cons_append, ← List.append_assoc] at heq
      obtain ⟨rfl, rfl⟩ := List.append_singleton_inj.mp heq
      simp only [List.concat_eq_append, List.mem_append, List.mem_singleton, not_or]
        at hoff hkeeloq hprobe
      refine ⟨⟨before, carrier, after', rfl, hcarrier, hoff.1, hkeeloq.1,
        fun hmem => hprobe (.inl hmem)⟩, hoff.2, hkeeloq.2, fun heq => ?_⟩
      rw [applyAll_append]
      exact applyAll_initialized (hprobe (.inr heq))
  · rintro ⟨⟨before, carrier, after, rfl, hcarrier, hoff, hkeeloq, hprobe⟩, hop⟩
    refine ⟨before, carrier, after ++ [op], by simp, hcarrier, ?_, ?_, fun hmem => ?_⟩
    · simpa using ⟨hoff, hop.off⟩
    · simpa using ⟨hkeeloq, hop.keeloq⟩
    · by_cases hearlier : .probe ∈ after
      · exact hprobe hearlier
      · rcases List.mem_append.mp hmem with hmem | hlast
        · exact absurd hmem hearlier
        · have hinit := hop.probe (List.mem_singleton.mp hlast)
          have hnone : .probe ∉ carrier :: after := by
            rw [List.mem_cons, not_or]
            refine ⟨?_, hearlier⟩
            rcases hcarrier with rfl | rfl <;> exact Operation.noConfusion
          rwa [applyAll_append, applyAll_rfInitialized hnone] at hinit

/-- So the transmitter is on exactly while a carrier stands. -/
theorem onAir_concat (hlaw : (h.applyAll ops).OnAir ↔ CarrierStands h ops)
    (hquiet : ∀ regs, op = .moved regs → (regs 7 &&& 0x8 ≠ 0 ↔ (h.applyAll ops).OnAir)) :
    (h.applyAll (ops ++ [op])).OnAir ↔ CarrierStands h (ops ++ [op]) := by
  have happly : h.applyAll (ops ++ [op]) = op.apply (h.applyAll ops) := applyAll_append h ops [op]
  rw [happly]
  by_cases hop : op.IsCarrier
  · exact iff_of_true (apply_onAir_carrier hop)
      ⟨ops, op, [], rfl, hop, List.not_mem_nil, List.not_mem_nil,
        fun hmem => absurd hmem List.not_mem_nil⟩
  · rw [apply_onAir hop hquiet, carrierStands_concat hop, hlaw]

end OnAir

/-- The menu does not move the radio. -/
theorem operation_moved {sys : UInt16} {s : Firmware} {obs : List FirmwareObs} {act : FirmwareAct}
    {regs : RegFile} (h : operation sys s obs act = some (.moved regs)) : act = .radio regs := by
  cases act with
  | radio regs' =>
      cases h
      rfl
  | round rv =>
      simp only [operation] at h
      split at h
      · split at h
        · unfold menuOperation at h
          split at h
          · split at h <;> cases h
          · split at h <;> cases h
          · cases h
        · cases h
      · cases h
  | timer bank => cases h
  | converted val => cases h
  | pinChange => cases h

/-- The radio does not switch the transmitter by itself. -/
def KeepsTransmitter (s : Firmware) : FirmwareAct → Prop
  | .radio regs => regs 7 &&& 0x8 ≠ 0 ↔ s.hardware.OnAir
  | _ => True

/-- In every run of the firmware that finds the transmitter off, before a radio that does not switch
    it by itself, it is on if and only if a carrier was selected that stands. Leaving the
    application does not turn it off. -/
theorem firmware_onAir (sys : UInt16) (tbl : CmdTable) (o : PostInc) (regs : RegFile)
    (mem : UsbSerial) (hoff : regs 7 &&& 0x8 = 0) :
    ∃ s₀, boot sys regs mem = some s₀ ∧ ∀ acts s ops,
      Guarded (hardwareStep sys tbl o) KeepsTransmitter s₀ acts →
        run (hardwareStep sys tbl o) s₀ acts = some (s, ops) →
          (s.hardware.OnAir ↔ CarrierStands s₀.hardware ops) := by
  obtain ⟨s₀, hboot, hinit⟩ := boot_inv sys regs mem
  refine ⟨s₀, hboot, fun acts s ops hguard hrun => ?_⟩
  have hkeeps : ∀ s ops act s' ops',
      (FirmwareInv sys s ∧ s.hardware = s₀.hardware.applyAll ops ∧
        (s.hardware.OnAir ↔ CarrierStands s₀.hardware ops)) → KeepsTransmitter s act →
      hardwareStep sys tbl o s act = some (s', ops') →
      FirmwareInv sys s' ∧ s'.hardware = s₀.hardware.applyAll (ops ++ ops') ∧
        (s'.hardware.OnAir ↔ CarrierStands s₀.hardware (ops ++ ops')) := by
    rintro s ops act s' ops' ⟨hinv, heq, hlaw⟩ hquiet hstep
    obtain ⟨hinv', heq'⟩ := hardwareStep_hardware hinv hstep
    have hall : s'.hardware = s₀.hardware.applyAll (ops ++ ops') := by
      rw [heq', heq, applyAll_append]
    refine ⟨hinv', hall, ?_⟩
    rw [hall]
    obtain ⟨r, hfirm, hr⟩ := Option.map_eq_some_iff.mp hstep
    obtain ⟨-, rfl⟩ := Prod.mk.inj hr
    rw [heq] at hlaw
    cases hoperation : operation sys s r.2 act with
    | none => simpa using hlaw
    | some op =>
        refine onAir_concat hlaw fun regs' hop => ?_
        subst hop
        obtain rfl := operation_moved hoperation
        rw [← heq]
        exact hquiet
  have hempty : ¬ CarrierStands s₀.hardware [] := by
    rintro ⟨before, op, after, heq, -⟩
    exact absurd heq (by simp)
  have hfirst : ¬ s₀.hardware.OnAir := by
    rw [boot_hardware hboot]
    exact not_not.mpr hoff
  exact (run_guarded_induction KeepsTransmitter hkeeps ⟨hinit, rfl, iff_of_false hfirst hempty⟩
    hguard hrun).2.2

/-- The seven ticks up to the next sample of a key channel. -/
def keypadPeriod : List FirmwareAct := List.replicate 7 (.timer [])

/-- `KEY_RIGHT` enters "RF", `KEY_DOWN` moves to "Carrier 315", and `KEY_SELECT` selects it. -/
def selectCarrier : List FirmwareAct :=
  [.converted 200, .timer [], .converted 10] ++
    keypadPeriod ++ [.converted 100, .round 0, .round 0, .round 0] ++
    keypadPeriod ++ [.converted 255] ++
    keypadPeriod ++ [.converted 10, .round 0] ++
    keypadPeriod ++ [.converted 10, .round 0]

theorem firmware_onAir_selectCarrier :
    ∃ s₀ s ops, boot 256 (fun _ => 0) .zero = some s₀ ∧
      run (hardwareStep 256 cmdTbl .unchanged) s₀ selectCarrier = some (s, ops) ∧
      s.hardware.OnAir ∧ CarrierStands s₀.hardware ops := by
  obtain ⟨s₀, hboot, hlaw⟩ := firmware_onAir 256 cmdTbl .unchanged (fun _ => 0) .zero (by decide)
  have hrun : ((boot 256 (fun _ => 0) .zero).bind fun s₀ =>
      (run (hardwareStep 256 cmdTbl .unchanged) s₀ selectCarrier).map fun r =>
        decide r.1.hardware.OnAir) = some true := by
    decide +kernel
  rw [hboot] at hrun
  obtain ⟨⟨s, ops⟩, hreach, hbit⟩ := Option.map_eq_some_iff.mp hrun
  have hair : s.hardware.OnAir := of_decide_eq_true hbit
  have hkind : ∀ act ∈ selectCarrier, ∀ s, KeepsTransmitter s act := by
    simp [selectCarrier, keypadPeriod, KeepsTransmitter]
  have hguard : Guarded (hardwareStep 256 cmdTbl .unchanged) KeepsTransmitter s₀ selectCarrier :=
    Guarded.imp (fun s act _ h => h s) (fun _ _ _ _ _ _ _ => trivial) trivial
      (guarded_of_forall_mem hkind s₀)
  exact ⟨s₀, s, ops, hboot, hreach, hair, (hlaw _ s ops hguard hreach).mp hair⟩

end RfPirate
