/-
Module: RfPirate.Core.Ui
Layer: Core
Purpose: `ui.cpp`: the menu arrays of the firmware, the event handler that is always registered,
  `ui_setup`, and the loop of `main` around `evt_handler_dispatch` with all that this firmware runs
  in it. Interrupts post, receive and let the radio move between two rounds of the loop. The
  command table is a parameter; that of this firmware is `cmdTbl`.
Main exports: updateStatus, updateVbatt, iconCb, parseLine, uiEventNotify, callback, firmware,
  dispatchLoop, uiSetup, UiState, UiAct, uiStep
-/
import RfPirate.Core.CmdParser
import RfPirate.Core.RfApps

namespace RfPirate

open Lib Lib.CString

/-! ### Addresses -/

def uiEventNotifyCb : EventNotifyCb := 1
def rfEventNotifyCb : EventNotifyCb := 2
def rfDebugNotifyCb : EventNotifyCb := 3

def jmpBootloaderFn : ExecFn := 1
def shutdownFn : ExecFn := 2
def keeloq315TxFn : ExecFn := 3
def unmodCarrier315Fn : ExecFn := 4
def unmodCarrier434Fn : ExecFn := 5
def unmodCarrierOffFn : ExecFn := 6

def iconCbFn : IconCb := 1

/-! ### Menus -/

def mRoot : MenuPtr := 1
def mRfRoot : MenuPtr := 2
def mRfDebug : MenuPtr := 3

/-- The entries of the array at an address, without the terminator. -/
def menuEntries (menu : MenuPtr) : List MenuEntry :=
  if menu = mRoot then
    [.evtHdl (some (lit "RF")) mRfRoot (some rfEventNotifyCb),
      .evtHdl (some (lit "RF Debug")) mRfDebug (some rfDebugNotifyCb),
      .exec (some (lit "Bootloader")) jmpBootloaderFn,
      .exec (some (lit "Shutdown")) shutdownFn]
  else if menu = mRfRoot then
    [.exec (some (lit "Keeloq TX")) keeloq315TxFn,
      .exec (some (lit "Carrier 315")) unmodCarrier315Fn,
      .exec (some (lit "Carrier 434")) unmodCarrier434Fn,
      .exec (some (lit "Carrier Off")) unmodCarrierOffFn]
  else []

/-! ### Functions -/

/-- `jmp_bootloader`. It does not return. -/
def jmpBootloader (w : World Vars) : World Vars := w.setRest fun v => { v with bootloader := true }

/-- `shutdown`: the panel is turned off and the power is let go. -/
def shutdown (w : World Vars) : World Vars := w.setRest fun v => { v with pshold := false }

/-- `UpdateStatus`. -/
def updateStatus (str : List UInt8) (w : World Vars) : World Vars :=
  w.draw fun d => drawstring (clearline d 6) 6 0 str false

def vbatt1p0 : UInt8 := 160
def vbatt0p75 : UInt8 := 158
def vbatt0p5 : UInt8 := 150
def vbatt0p25 : UInt8 := 140

/-- `UpdateVbatt`: the icon for a level. -/
def updateVbatt (level : UInt8) : BattIcon :=
  if level ≥ vbatt1p0 then .batt1p0
  else if level ≥ vbatt0p75 then .batt0p75
  else if level ≥ vbatt0p5 then .batt0p5
  else if level ≥ vbatt0p25 then .batt0p25
  else .batt0p0

def BattIcon.bitmap : BattIcon → List UInt8
  | .batt0p0 => [0x18, 0x7E, 0x42, 0x42, 0x42, 0x42, 0x42, 0x42, 0x42, 0x42, 0x7E, 0x18]
  | .batt0p25 => [0x18, 0x7E, 0x42, 0x42, 0x42, 0x42, 0x42, 0x42, 0x7E, 0x7E, 0x7E, 0x18]
  | .batt0p5 => [0x18, 0x7E, 0x42, 0x42, 0x42, 0x42, 0x7E, 0x7E, 0x7E, 0x7E, 0x7E, 0x18]
  | .batt0p75 => [0x18, 0x7E, 0x42, 0x42, 0x7E, 0x7E, 0x7E, 0x7E, 0x7E, 0x7E, 0x7E, 0x18]
  | .batt1p0 => [0x18, 0x7E, 0x7E, 0x7E, 0x7E, 0x7E, 0x7E, 0x7E, 0x7E, 0x7E, 0x7E, 0x18]

/-- `icon_cb`: the bytes behind the pointer it returns. -/
def iconCb (batt : BattIcon) (idx : UInt8) : List UInt8 :=
  if idx = 0 then batt.bitmap else font.drop (36 * 5)

/-- What the icon functions of this firmware return. -/
def iconBytes (batt : BattIcon) : IconBytes := fun cb idx =>
  if cb = iconCbFn then iconCb batt (UInt8.ofNat idx) else []

section Callbacks

-- the commands that are registered, what `i = i++` leaves in `i`, `menu.KeyHandler` as the
-- callbacks see it, and what the unassigned variable holds
variable (tbl : CmdTable) (o : PostInc)
  (menuKeyHandler : UInt8 → World Vars → Option (World Vars)) (rv : UInt8)

/-- The case of `EVENT_SERIAL_RECV`. -/
def parseLine (data : UInt16) (w : World Vars) : Option (World Vars) :=
  (w.rest.ser.parseCmd tbl o data.toNat).map fun ser => w.setRest fun v => { v with ser := ser }

/-- `ui_event_notify`. -/
def uiEventNotify (event : UInt8) (data : UInt16) (w : World Vars) :
    Option (UInt8 × World Vars) :=
  -- pass keypresses to menu
  if event = eventKeypress then (menuKeyHandler data.toUInt8 w).map ((1, ·))
  else if event = eventIconUpdt then some (1, w)
  else if event = eventSdDet then some (1, updateStatus (ascii "SD Card detected") w)
  else if event = eventSdRmv then some (1, updateStatus (ascii "SD Card removed") w)
  else if event = eventVbatt then
    some (1, w.setRest fun v => { v with battIcon := updateVbatt data.toUInt8 })
  else if event = eventSerialRecv then (parseLine tbl o data w).map ((1, ·))
  else some (1, w)

/-- The event handler at a code address. -/
def callback (cb : EventNotifyCb) (event : UInt8) (data : UInt16) (w : World Vars) :
    Option (UInt8 × World Vars) :=
  if cb = uiEventNotifyCb then uiEventNotify tbl o menuKeyHandler event data w
  else if cb = rfEventNotifyCb then some (rfEventNotify event data w)
  else if cb = rfDebugNotifyCb then some (rfDebugNotify rv event data w)
  else none

end Callbacks

/-- The `exec_fn` at a code address. -/
def execute (f : ExecFn) (w : World Vars) : World Vars :=
  if f = jmpBootloaderFn then jmpBootloader w
  else if f = shutdownFn then shutdown w
  else if f = keeloq315TxFn then keeloq315Tx w
  else if f = unmodCarrier315Fn then unmodCarrier315 w
  else if f = unmodCarrier434Fn then unmodCarrier434 w
  else if f = unmodCarrierOffFn then unmodCarrierOff w
  else w

/-- The firmware as the menu code sees it. The traversals that the key handler starts offer app
    events only, for which no handler looks at a key or a line or returns the unassigned
    variable. -/
def firmware (sys : UInt16) : Program Vars where
  menus menu i := (menuEntries menu).getD i (.dummy none)
  enumText _ _ := lit ""
  call cb event data w :=
    (callback cmdTbl .unchanged (fun _ w => some w) 0 cb event data w).getD (0, w)
  exec := execute
  sys := sys

/-- `menu.KeyHandler`. -/
def uiKeyHandler (sys : UInt16) (k : UInt8) (w : World Vars) : Option (World Vars) :=
  (keyHandler (firmware sys) maxHandlers w k).map Prod.fst

/-! ### Dispatch -/

/-- The `for` loop of `evt_handler_dispatch` from `tmp` on, around handlers that may not return.
    `tmp->next` is read after the call. `none` when a NULL `cb` is called, when a handler does not
    return, or when the fuel runs out. -/
def dispatchLoop (call : EventNotifyCb → World Vars → Option (UInt8 × World Vars)) (e : EventT) :
    Nat → Option NodePtr → World Vars → Option (World Vars × List Offer)
  | _, none, w => some (w, [])
  | 0, some _, _ => none
  | fuel + 1, some n, w =>
      match (w.handlers.pool n).cb with
      | none => none
      | some cb =>
          match call cb w with
          | none => none
          | some (rv, w') =>
              if rv ≠ 0 then some (w', [⟨cb, e.event, e.data⟩])
              else
                (dispatchLoop call e fuel (w'.handlers.pool n).next w').map fun r =>
                  (r.1, ⟨cb, e.event, e.data⟩ :: r.2)

/-- The `while` body of `evt_handler_dispatch` up to the advance, for the event at the tail. Nobody
    writes to the slot of the tail before the advance, so the event is the same in every call. -/
def dispatchEvent (sys : UInt16) (tbl : CmdTable) (o : PostInc) (rv : UInt8) (e : EventT)
    (w : World Vars) : Option (World Vars × List Offer) :=
  dispatchLoop (fun cb => callback tbl o (uiKeyHandler sys) rv cb e.event e.data) e maxHandlers
    w.handlers.head w

/-- The event queue and the rest. -/
structure UiState where
  queue : EventQueue
  world : World Vars

/-- The event of the next round. -/
def UiState.pending (s : UiState) : Option EventT :=
  if s.queue.qTail ≠ s.queue.qHead then some (s.queue.eventQ s.queue.qTail) else none

/-- Labels: a post, the serial object moving in an interrupt, the registers of the radio moving, and
    a round of `evt_handler_dispatch` in which the unassigned variable holds `rv`. -/
inductive UiAct where
  | post (event : UInt8) (data : UInt16)
  | serial (ser : UsbSerial)
  | radio (regs : RegFile)
  | dispatch (rv : UInt8)

/-- Nobody posts a start event with anything but the context, and there is no step for it. A round
    that ends in the bootloader has none either, nor has one whose handlers do not return. When the
    queue is empty `evt_handler_dispatch` returns and `main` calls it again. -/
def uiStep (sys : UInt16) (tbl : CmdTable) (o : PostInc) : Machine.Step UiState UiAct Offer
  | s, .post event data =>
      if event = eventAppStart ∧ data ≠ sys then none
      else some ({ s with queue := evtHandlerEvent s.queue event data }, [])
  | s, .serial ser =>
      some ({ s with world := s.world.setRest fun v => { v with ser := ser } }, [])
  | s, .radio regs => some ({ s with world := s.world.setRegs fun _ => regs }, [])
  | s, .dispatch rv =>
      match s.pending with
      | none => some (s, [])
      | some e =>
          match dispatchEvent sys tbl o rv e s.world with
          | none => none
          | some (w, offers) =>
              if w.rest.bootloader then none
              else some ({ queue := s.queue.advance, world := w }, offers)

/-! ### Setup -/

/-- Static storage with the constructors run, before a radio in any state. -/
def uiZero (regs : RegFile) (ser : UsbSerial) : World Vars where
  menu := menuCtor .zero mRoot 1 5
  oled := .zero
  handlers := .zero
  opened _ _ := false
  drops := ⟨fun _ => ⟨0, 0, 0, 0⟩, fun _ => 0⟩
  buf _ := 0
  rest :=
    { regs := regs
      rfInitialized := false
      regAddr := 0
      battIcon := .batt1p0
      icon := fun _ => none
      led := false
      pshold := true
      ser := ser
      bootloader := false }

/-- `ui_setup`, without the subsystems that are no part of the world. -/
def uiSetup (sys : UInt16) (w : World Vars) : Option (World Vars) :=
  -- register self as initial event handler, never gets popped
  let w := { w with handlers := evtHandlerAddhandler w.handlers (some uiEventNotifyCb) }
  let w := w.setRest fun v => { v with led := true }
  -- register battery icon
  let w := w.setRest fun v => { v with icon := registericon v.icon 0 (some iconCbFn) }
  -- draw battery icon
  let w := w.draw fun d => drawicon d 0 7 19 2
  drawMenu (firmware sys) w

end RfPirate
