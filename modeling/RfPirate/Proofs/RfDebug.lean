/-
Module: RfPirate.Proofs.RfDebug
Layer: Proofs
Purpose: The keys of the RF Debug application. It consumes every key but `KEY_LEFT`, so that neither
  menu nor display change behind its back, if the variable it returns happens not to be zero on the
  two ways that do not assign it. Where it is zero, the key goes on to the menu, which is drawn over
  the dump.
Main exports: UiState.debugKey, TrapLaw, TrapOk, rfDebug_traps, rfDebug_traps_fails
-/
import RfPirate.Proofs.Ui

namespace RfPirate

open Lib Lib.Machine

section Traps

variable {sys : UInt16} {tbl : CmdTable} {o : PostInc} {rv : UInt8} {e : EventT} {data : UInt16}
  {w w' : World Vars} {s : UiState}

/-! ### Keys -/

/-- What `rf_debug_notify` returns for a key. -/
theorem rfDebugNotify_key (rv : UInt8) (data : UInt16) (w : World Vars) :
    (rfDebugNotify rv eventKeypress data w).1 =
      if data = keyUp.toUInt16 ∨ data = keyDown.toUInt16 then rv
      else if data = keyLeft.toUInt16 then 0 else 1 := by
  rw [rfDebugNotify, if_neg (by decide), if_neg (by decide), if_pos rfl]
  by_cases hup : data = keyUp.toUInt16
  · rw [if_pos hup, if_pos (.inl hup)]
  by_cases hdown : data = keyDown.toUInt16
  · rw [if_neg hup, if_pos hdown, if_pos (.inr hdown)]
  by_cases hleft : data = keyLeft.toUInt16
  · rw [if_neg hup, if_neg hdown, if_pos hleft, if_neg (not_or.mpr ⟨hup, hdown⟩), if_pos hleft]
  · rw [if_neg hup, if_neg hdown, if_neg hleft, if_neg (not_or.mpr ⟨hup, hdown⟩), if_neg hleft]

/-- For a key it leaves the menu object alone. -/
theorem rfDebugNotify_key_menu (rv : UInt8) (data : UInt16) (w : World Vars) :
    (rfDebugNotify rv eventKeypress data w).2.menu = w.menu := by
  rw [rfDebugNotify, if_neg (by decide), if_neg (by decide), if_pos rfl]
  split
  · rfl
  split
  · rfl
  split
  · rfl
  · rfl

/-- The menu does not execute anything for `KEY_UP` and `KEY_DOWN`. -/
theorem uiKeyHandler_rest {k : UInt8} (hk : k = keyUp ∨ k = keyDown)
    (h : uiKeyHandler sys k w = some w') : w'.rest = w.rest := by
  obtain ⟨⟨w₂, offers⟩, hkey, rfl⟩ := Option.map_eq_some_iff.mp h
  obtain ⟨w₁, heffect, hdraw⟩ := keyHandler_effect hkey
  obtain ⟨cnt, oled, buf, -, rfl⟩ := drawMenu_eq hdraw
  show w₁.rest = w.rest
  cases heffect with
  | up eq =>
      subst eq
      unfold keyUpCase
      split <;> rfl
  | down eq =>
      subst eq
      unfold keyDownCase
      split
      · rfl
      split <;> rfl
  | left case => exact absurd hk (by decide)
  | right case => exact absurd hk (by decide)
  | select eq => exact absurd hk (by decide)
  | other up down left right eq => rw [eq]

/-! ### The law -/

/-- The key that the next round offers to `rf_debug_notify` first. -/
def UiState.debugKey (s : UiState) : Option UInt16 :=
  if headCb s.world.handlers = some rfDebugNotifyCb then
    (s.pending.filter fun e => e.event = eventKeypress).map EventT.data
  else none

/-- What a round has to satisfy: a key other than `KEY_LEFT` is offered to `rf_debug_notify` alone,
    the menu object is as before, and the display is as the application leaves it. -/
def TrapLaw (sys : UInt16) (tbl : CmdTable) (o : PostInc) (s : UiState) : UiAct → Prop
  | .dispatch rv => ∀ data ∈ s.debugKey, data ≠ keyLeft.toUInt16 →
      ∀ s' offers, uiStep sys tbl o s (.dispatch rv) = some (s', offers) →
        offers = [⟨rfDebugNotifyCb, eventKeypress, data⟩] ∧
        s'.world.menu = s.world.menu ∧
        s'.world.oled = (rfDebugNotify rv eventKeypress data s.world).2.oled
  | _ => True

/-- Where `KEY_UP` or `KEY_DOWN` is offered to the application, the variable it does not assign is
    not zero. -/
def TrapOk (s : UiState) : UiAct → Prop
  | .dispatch rv => ∀ data ∈ s.debugKey,
      data = keyUp.toUInt16 ∨ data = keyDown.toUInt16 → rv ≠ 0
  | _ => True

/-- What it means that a key is offered to the application. -/
theorem UiStateInv.debugKey (h : UiStateInv sys s) (hkey : data ∈ s.debugKey) :
    entered (firmware sys) s.world = [rfDebugNotifyCb] ∧
      s.pending = some ⟨eventKeypress, data⟩ := by
  unfold UiState.debugKey at hkey
  split at hkey
  · rename_i hhead
    obtain ⟨⟨event, data'⟩, hfilter, rfl⟩ := Option.map_eq_some_iff.mp hkey
    obtain ⟨hpending, hevent⟩ := Option.filter_eq_some_iff.mp hfilter
    have hevent' : event = eventKeypress := by simpa using hevent
    exact ⟨h.inv.entered_of_headCb (by decide) hhead, hevent' ▸ hpending⟩
  · cases hkey

/-- The round, when the application consumes the key. -/
theorem UiStateInv.trapped (h : UiStateInv sys s) (hkey : data ∈ s.debugKey)
    (hrv : (rfDebugNotify rv eventKeypress data s.world).1 ≠ 0) {s' : UiState}
    {offers : List Offer} (hstep : uiStep sys tbl o s (.dispatch rv) = some (s', offers)) :
    offers = [⟨rfDebugNotifyCb, eventKeypress, data⟩] ∧
      s'.world = (rfDebugNotify rv eventKeypress data s.world).2 := by
  obtain ⟨happ, hpending⟩ := h.debugKey hkey
  have hcall : handlerCall sys tbl o rv ⟨eventKeypress, data⟩ rfDebugNotifyCb s.world =
      some (true, (rfDebugNotify rv eventKeypress data s.world).2) := by
    show some (decide ((rfDebugNotify rv eventKeypress data s.world).1 ≠ 0), _) = _
    rw [decide_eq_true hrv]
  obtain ⟨w', hround, -, rfl⟩ := uiStep_dispatch_inv hpending hstep
  rw [h.inv.dispatch_consumed happ hcall] at hround
  cases hround
  exact ⟨rfl, rfl⟩

/-- The round, when it does not: the key reaches the base handler. -/
theorem UiStateInv.untrapped (h : UiStateInv sys s) (hkey : data ∈ s.debugKey)
    (harrow : data = keyUp.toUInt16 ∨ data = keyDown.toUInt16) :
    ∃ s', uiStep sys tbl o s (.dispatch 0) = some (s', [⟨rfDebugNotifyCb, eventKeypress, data⟩,
      ⟨uiEventNotifyCb, eventKeypress, data⟩]) := by
  obtain ⟨happ, hpending⟩ := h.debugKey hkey
  have hkeeps := rfDebugNotify_keeps 0 eventKeypress data s.world
  obtain ⟨w', hmenu, -⟩ := (h.inv.keeps hkeeps).keyHandler data.toUInt8
  have hcall : handlerCall sys tbl o 0 ⟨eventKeypress, data⟩ rfDebugNotifyCb s.world =
      some (false, (rfDebugNotify 0 eventKeypress data s.world).2) := by
    show some (decide ((rfDebugNotify 0 eventKeypress data s.world).1 ≠ 0), _) = _
    rw [rfDebugNotify_key, if_pos harrow]
    rfl
  have hbase : uiEventNotify tbl o (uiKeyHandler sys) eventKeypress data
      (rfDebugNotify 0 eventKeypress data s.world).2 = some (1, w') := by
    rw [uiEventNotify, if_pos rfl, hmenu]
    rfl
  have hk : data.toUInt8 = keyUp ∨ data.toUInt8 = keyDown := by
    rcases harrow with rfl | rfl
    · exact .inl (by decide)
    · exact .inr (by decide)
  have hrunning : w'.rest.bootloader = false := by
    rw [uiKeyHandler_rest hk hmenu, hkeeps.bootloader, h.running]
  exact ⟨_, uiStep_dispatch hpending (h.inv.dispatch_passed happ hcall hbase) hrunning⟩

theorem trapLaw_iff (h : UiStateInv sys s) (act : UiAct) :
    TrapLaw sys tbl o s act ↔ TrapOk s act := by
  cases act with
  | post event data => exact Iff.rfl
  | serial ser => exact Iff.rfl
  | radio regs => exact Iff.rfl
  | dispatch rv =>
      constructor
      · rintro hlaw data hkey harrow rfl
        have hleft : data ≠ keyLeft.toUInt16 := by
          rcases harrow with rfl | rfl <;> decide
        obtain ⟨s', hstep⟩ := h.untrapped hkey harrow
        have hoffers := (hlaw data hkey hleft s' _ hstep).1
        exact absurd (congrArg List.length hoffers) (by simp)
      · intro hok data hkey hleft s' offers hstep
        have hrv : (rfDebugNotify rv eventKeypress data s.world).1 ≠ 0 := by
          rw [rfDebugNotify_key, if_neg hleft]
          split
          · rename_i harrow
            exact hok data hkey harrow
          · decide
        obtain ⟨hoffers, hworld⟩ := h.trapped hkey hrv hstep
        refine ⟨hoffers, ?_, by rw [hworld]⟩
        rw [hworld]
        exact rfDebugNotify_key_menu rv data s.world

end Traps

/-- In every run from `ui_setup` on, with any events posted and any values of the unassigned
    variable, the RF Debug application traps its keys if and only if that variable is not zero in
    each round that offers it `KEY_UP` or `KEY_DOWN`. -/
theorem rfDebug_traps (sys : UInt16) (tbl : CmdTable) (o : PostInc) (regs : RegFile)
    (ser : UsbSerial) :
    ∃ w, uiSetup sys (uiZero regs ser) = some w ∧ ∀ acts,
      (Guarded (uiStep sys tbl o) (TrapLaw sys tbl o) ⟨.zero, w⟩ acts ↔
        Guarded (uiStep sys tbl o) TrapOk ⟨.zero, w⟩ acts) := by
  obtain ⟨w, hsetup, hinit⟩ := uiSetup_inv sys regs ser
  refine ⟨w, hsetup, fun acts => ?_⟩
  exact guarded_iff (fun s act h => trapLaw_iff h act)
    (fun s act s' offers h _ hstep => uiStep_keeps h hstep) hinit

/-- A key press and the round that handles it. -/
def press (k rv : UInt8) : List UiAct := [.post eventKeypress k.toUInt16, .dispatch rv]

/-- The application is entered, and then `KEY_UP` finds a zero in the variable: the key is offered
    to the base handler as well, and the menu puts its arrow over the last digit of line 1. -/
theorem rfDebug_traps_fails :
    ∃ w s s' offers,
      uiSetup 256 (uiZero (fun _ => 0) .zero) = some w ∧
      run (uiStep 256 cmdTbl .unchanged) ⟨.zero, w⟩ (press keyDown 0 ++ press keyRight 0 ++
        [.post eventKeypress keyUp.toUInt16]) = some (s, offers) ∧
      uiStep 256 cmdTbl .unchanged s (.dispatch 0) =
        some (s', [⟨rfDebugNotifyCb, eventKeypress, keyUp.toUInt16⟩,
          ⟨uiEventNotifyCb, eventKeypress, keyUp.toUInt16⟩]) ∧
      (rfDebugNotify 0 eventKeypress keyUp.toUInt16 s.world).2.oled.buf (cell 1 20) = 48 ∧
      s'.world.oled.buf (cell 1 20) = 1 ∧
      ¬ Guarded (uiStep 256 cmdTbl .unchanged) (TrapLaw 256 cmdTbl .unchanged) ⟨.zero, w⟩
        (press keyDown 0 ++ press keyRight 0 ++ press keyUp 0) := by
  have hrun : ((uiSetup 256 (uiZero (fun _ => 0) .zero)).bind fun w =>
      (run (uiStep 256 cmdTbl .unchanged) ⟨.zero, w⟩ (press keyDown 0 ++ press keyRight 0 ++
        [.post eventKeypress keyUp.toUInt16])).bind fun r =>
      (uiStep 256 cmdTbl .unchanged r.1 (.dispatch 0)).map fun r' =>
        (r.1.debugKey, r'.2, (rfDebugNotify 0 eventKeypress keyUp.toUInt16 r.1.world).2.oled.buf
          (cell 1 20), r'.1.world.oled.buf (cell 1 20))) =
      some (some keyUp.toUInt16, [⟨rfDebugNotifyCb, eventKeypress, keyUp.toUInt16⟩,
        ⟨uiEventNotifyCb, eventKeypress, keyUp.toUInt16⟩], 48, 1) := by
    decide +kernel
  obtain ⟨w, hsetup, hrest⟩ := Option.bind_eq_some_iff.mp hrun
  obtain ⟨⟨s, offers⟩, hreach, hrest⟩ := Option.bind_eq_some_iff.mp hrest
  obtain ⟨⟨s', offers'⟩, hstep, hvalues⟩ := Option.map_eq_some_iff.mp hrest
  simp only [Prod.mk.injEq] at hvalues
  obtain ⟨hkey, rfl, hbefore, hafter⟩ := hvalues
  refine ⟨w, s, s', offers, hsetup, hreach, hstep, hbefore, hafter, fun hlaw => ?_⟩
  have hlaw' : Guarded (uiStep 256 cmdTbl .unchanged) (TrapLaw 256 cmdTbl .unchanged) ⟨.zero, w⟩
      ((press keyDown 0 ++ press keyRight 0 ++ [.post eventKeypress keyUp.toUInt16]) ++
        [.dispatch 0]) := hlaw
  have hlast : TrapLaw 256 cmdTbl .unchanged s (.dispatch 0) := (hlaw'.of_append hreach).1
  have hoffers := (hlast keyUp.toUInt16 hkey (by decide) s' _ hstep).1
  exact absurd (congrArg List.length hoffers) (by decide)

end RfPirate
