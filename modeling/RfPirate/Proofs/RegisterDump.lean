/-
Module: RfPirate.Proofs.RegisterDump
Layer: Proofs
Purpose: The register dump of the RF Debug application: what is on its five lines, where the window
  on the registers can stand, and that scrolling brings every register of the radio on the display.
Main exports: dumpRfRegs_cell, WindowOk, DumpInv, ShowsRegister, dump_shows, Debugging, rfDebug_dump
-/
import RfPirate.Proofs.EvtQueue
import RfPirate.Proofs.Firmware
import RfPirate.Proofs.RadioTuning
import RfPirate.Proofs.RfDebug

namespace RfPirate

open Lib Lib.CString Lib.Machine

/-! ### The text of a line -/

theorem dumpText_length (start : UInt8) (buf : Nat → UInt8) : (dumpText start buf).length = 21 :=
  rfl

/-- The digits of the values. -/
theorem dumpText_value (start : UInt8) (buf : Nat → UInt8) {i : Nat} (hi : i < 6) :
    (dumpText start buf).getD (4 + 3 * i) 0 = hexDigit 97 (buf i >>> (4 : UInt8)) ∧
      (dumpText start buf).getD (5 + 3 * i) 0 = hexDigit 97 (buf i &&& 0xf) := by
  match i, hi with
  | 0, _ => exact ⟨rfl, rfl⟩
  | 1, _ => exact ⟨rfl, rfl⟩
  | 2, _ => exact ⟨rfl, rfl⟩
  | 3, _ => exact ⟨rfl, rfl⟩
  | 4, _ => exact ⟨rfl, rfl⟩
  | 5, _ => exact ⟨rfl, rfl⟩

theorem burstRead_getD (regs : RegFile) (r : UInt8) {n i : Nat} (hi : i < n) :
    (burstRead regs r n).getD i 0 = regs (r + UInt8.ofNat i) := by
  induction n generalizing r i with
  | zero => exact absurd hi (Nat.not_lt_zero i)
  | succ n ih =>
      cases i with
      | zero => simp [burstRead]
      | succ i =>
          have hrest := ih (r + 1) (Nat.lt_of_succ_lt_succ hi)
          rw [burstRead, List.getD_cons_succ, hrest, UInt8.ofNat_add, UInt8.add_assoc,
            UInt8.add_comm 1]
          rfl

/-- A line reads the registers from its address on, as far as there are any. -/
theorem dumpBuf_eq (regs : RegFile) {start : UInt8} (hstart : start.toNat ≤ 126) {i : Nat}
    (hi : i < 6) (hlast : start.toNat + i < 128) (heven : start.toNat % 6 = 0) :
    dumpBuf regs start i = regs (start + UInt8.ofNat i) := by
  have haddr : start &&& 0x7f = start := readAddr_eq (by
    show start.toNat < 128
    omega)
  rw [dumpBuf, rfSpiReadm, haddr]
  apply burstRead_getD
  have hiff : start < 126 ↔ start.toNat < 126 := Iff.rfl
  split
  · exact hi
  · rename_i hge
    rw [hiff] at hge
    omega

/-! ### The lines of the dump -/

/-- The line `i` below the first one of the dump. -/
theorem dumpLoop_cell (regs : RegFile) {x : Nat} (hx : x < lcdCharPerLine) :
    ∀ (n line i : Nat) (start : UInt8) (d : Ssd1306), line + n ≤ lcdCharLines → i < n →
      (dumpLoop regs n line start d).buf (cell (line + i) x) =
        (dumpText (start + UInt8.ofNat (6 * i)) (dumpBuf regs (start + UInt8.ofNat (6 * i)))).getD
          x 0
  | 0, _, _, _, _, _, hi => absurd hi (Nat.not_lt_zero _)
  | n + 1, line, 0, start, d, hlines, _ => by
      have hkept := @dumpLoop_same regs line (by omega) n (line + 1)
        (start + regPerLine) (drawstring d line 0 (dumpText start (dumpBuf regs start)) false)
        (by omega) (.inl (Nat.lt_succ_self line))
      have hcovers : Covers line 0 (dumpText start (dumpBuf regs start)).length line x := by
        rw [dumpText_length]
        exact ⟨rfl, Nat.zero_le x, hx⟩
      show (dumpLoop regs n (line + 1) (start + regPerLine) _).buf (cell line x) = _
      rw [hkept.chars x hx, drawstring_cell _ _ _ (by omega) hx, if_pos hcovers]
      simp
  | n + 1, line, i + 1, start, d, hlines, hi => by
      have hrest := dumpLoop_cell regs hx n (line + 1) i (start + regPerLine)
        (drawstring d line 0 (dumpText start (dumpBuf regs start)) false) (by omega) (by omega)
      have hline : line + (i + 1) = line + 1 + i := by omega
      have hstart : start + UInt8.ofNat (6 * (i + 1)) =
          start + regPerLine + UInt8.ofNat (6 * i) := by
        rw [Nat.mul_add, Nat.add_comm, UInt8.ofNat_add, ← UInt8.add_assoc]
        rfl
      rw [dumpLoop, hline, hrest, hstart]

theorem dumpRfRegs_cell (regs : RegFile) (start : UInt8) (d : Ssd1306) {i x : Nat} (hi : i < 5)
    (hx : x < lcdCharPerLine) :
    (dumpRfRegs regs start d).buf (cell (1 + i) x) =
      (dumpText (start + UInt8.ofNat (6 * i)) (dumpBuf regs (start + UInt8.ofNat (6 * i)))).getD
        x 0 :=
  dumpLoop_cell regs hx 5 1 i start _ (by decide) hi

/-! ### The window -/

/-- The first register on the display starts a line, and the last line is not behind 0x7e. -/
structure WindowOk (v : Vars) : Prop where
  aligned : v.regAddr.toNat % 6 = 0
  last : v.regAddr.toNat + 24 ≤ 0x7e

theorem WindowOk.of_regAddr {v v' : Vars} (h : WindowOk v) (heq : v'.regAddr = v.regAddr) :
    WindowOk v' :=
  ⟨heq ▸ h.aligned, heq ▸ h.last⟩

/-- The window after a key, in numbers. -/
def scrollKey (a : Nat) (k : UInt8) : Nat := if k = keyUp then a - 6 else min (a + 6) 102

section Window

variable {sys : UInt16} {tbl : CmdTable} {o : PostInc} {rv : UInt8} {e : EventT}
  {w w' : World Vars} {s s' : UiState} {act : UiAct}
  {offers : List Offer}

/-- The key that scrolls up. -/
theorem rfDebugNotify_up (rv : UInt8) (w : World Vars) :
    (rfDebugNotify rv eventKeypress keyUp.toUInt16 w).2 = (w.setRest fun v =>
      if v.regAddr ≥ 6 then { v with regAddr := v.regAddr - regPerLine } else v).dump := by
  rw [rfDebugNotify, if_neg (by decide), if_neg (by decide), if_pos rfl, if_pos rfl]

/-- The key that scrolls down. -/
theorem rfDebugNotify_down (rv : UInt8) (w : World Vars) :
    (rfDebugNotify rv eventKeypress keyDown.toUInt16 w).2 = (w.setRest fun v =>
      if v.regAddr ≤ 126 - (5 * 6) then { v with regAddr := v.regAddr + regPerLine }
      else v).dump := by
  rw [rfDebugNotify, if_neg (by decide), if_neg (by decide), if_pos rfl, if_neg (by decide),
    if_pos rfl]

/-- Both in numbers. -/
theorem rfDebugNotify_scroll (rv : UInt8) {k : UInt8} (hk : k = keyUp ∨ k = keyDown)
    (h : WindowOk w.rest) :
    ∃ v, (rfDebugNotify rv eventKeypress k.toUInt16 w).2 = (w.setRest fun _ => v).dump ∧
      v.regs = w.rest.regs ∧ v.regAddr.toNat = scrollKey w.rest.regAddr.toNat k := by
  have halign := h.aligned
  have hlast := h.last
  have hsix : (6 : UInt8).toNat = 6 := rfl
  rcases hk with rfl | rfl
  · refine ⟨_, rfDebugNotify_up rv w, by split <;> rfl, ?_⟩
    rw [scrollKey, if_pos rfl]
    split
    · rename_i hge
      have hle : 6 ≤ w.rest.regAddr.toNat := hge
      show (w.rest.regAddr - 6).toNat = _
      rw [UInt8.toNat_sub_of_le _ _ hge, hsix]
    · rename_i hlt
      have hlt' : ¬ 6 ≤ w.rest.regAddr.toNat := hlt
      omega
  · have hne : ¬ keyDown = keyUp := by decide
    refine ⟨_, rfDebugNotify_down rv w, by split <;> rfl, ?_⟩
    rw [scrollKey, if_neg hne]
    split
    · rename_i hle
      have hle' : w.rest.regAddr.toNat ≤ 96 := hle
      show (w.rest.regAddr + 6).toNat = _
      rw [UInt8.toNat_add, hsix]
      omega
    · rename_i hgt
      have hgt' : ¬ w.rest.regAddr.toNat ≤ 96 := hgt
      omega

theorem rfDebugNotify_window (rv event : UInt8) (data : UInt16) (h : WindowOk w.rest) :
    WindowOk (rfDebugNotify rv event data w).2.rest := by
  have hscroll : ∀ k : UInt8, k = keyUp ∨ k = keyDown →
      WindowOk (rfDebugNotify rv eventKeypress k.toUInt16 w).2.rest := by
    intro k hk
    obtain ⟨v, heq, -, hv⟩ := rfDebugNotify_scroll rv hk h
    have halign := h.aligned
    have hlast := h.last
    rw [heq]
    refine ⟨?_, ?_⟩
    · show v.regAddr.toNat % 6 = 0
      rw [hv, scrollKey]
      split <;> omega
    · show v.regAddr.toNat + 24 ≤ 0x7e
      rw [hv, scrollKey]
      split <;> omega
  by_cases hkey : event = eventKeypress ∧ (data = keyUp.toUInt16 ∨ data = keyDown.toUInt16)
  · obtain ⟨rfl, rfl | rfl⟩ := hkey
    · exact hscroll keyUp (.inl rfl)
    · exact hscroll keyDown (.inr rfl)
  · unfold rfDebugNotify
    split
    · exact ⟨rfl, (by decide : (0 : UInt8).toNat + 24 ≤ 0x7e)⟩
    split
    · exact ⟨h.aligned, h.last⟩
    split
    · rename_i hevent
      rw [if_neg fun hup => hkey ⟨hevent, .inl hup⟩, if_neg fun hdown => hkey ⟨hevent, .inr hdown⟩]
      split <;> exact h
    · exact h

/-- Only the application moves the window. -/
theorem callback_window {menuKeyHandler : UInt8 → World Vars → Option (World Vars)}
    {cb : EventNotifyCb} {event : UInt8} {data : UInt16} {r : UInt8 × World Vars}
    (hmenu : event = eventKeypress → ∀ k w', menuKeyHandler k w = some w' → WindowOk w'.rest)
    (h : WindowOk w.rest) (hcall : callback tbl o menuKeyHandler rv cb event data w = some r) :
    WindowOk r.2.rest := by
  unfold callback at hcall
  split at hcall
  · by_cases hkey : event = eventKeypress
    · rw [uiEventNotify, if_pos hkey] at hcall
      obtain ⟨w', heq, rfl⟩ := Option.map_eq_some_iff.mp hcall
      exact hmenu hkey _ w' heq
    · obtain ⟨battIcon, ser, hrest⟩ := uiEventNotify_rest hkey hcall
      exact hrest ▸ h.of_regAddr rfl
  split at hcall
  · cases hcall
    obtain ⟨led, hrest⟩ := rfEventNotify_rest event data w
    rw [hrest]
    split <;> exact h.of_regAddr rfl
  split at hcall
  · cases hcall
    exact rfDebugNotify_window rv event data h
  · cases hcall

/-- The keys of the menu move it no more than that. -/
theorem uiKeyHandler_window {k : UInt8} (h : WindowOk w.rest)
    (hmenu : uiKeyHandler sys k w = some w') : WindowOk w'.rest := by
  refine uiKeyHandler_keeps WindowOk ?_ ?_ h hmenu
  · intro cb event data w₁ hevent hw
    show WindowOk
      ((callback cmdTbl .unchanged (fun _ w => some w) 0 cb event data w₁).getD (0, w₁)).2.rest
    cases hcall : callback cmdTbl .unchanged (fun _ w => some w) 0 cb event data w₁ with
    | none => exact hw
    | some r =>
        refine callback_window (fun hkey => ?_) hw hcall
        subst hkey
        exact absurd hevent (by decide)
  · intro text f _ _ hw
    obtain ⟨regs, pshold, bootloader, hrest⟩ := execute_rest f _
    exact hrest ▸ hw.of_regAddr rfl

theorem dispatchEvent_window (hinv : UiInv sys w) (h : WindowOk w.rest)
    (hround : dispatchEvent sys tbl o rv e w = some (w', offers)) : WindowOk w'.rest := by
  have hcallback : ∀ {cb w₁ r}, WindowOk w₁.rest →
      callback tbl o (uiKeyHandler sys) rv cb e.event e.data w₁ = some r → WindowOk r.2.rest :=
    fun hw hcall => callback_window (fun _ k w' heq => uiKeyHandler_window hw heq) hw hcall
  cases hinv.round_parts hround with
  | base call => exact @hcallback uiEventNotifyCb w (1, w') h call
  | consumed app call ne => exact hcallback h call
  | passed app call base =>
      exact @hcallback uiEventNotifyCb _ (1, w') (hcallback h call) base

/-- What holds between two steps. -/
structure DumpInv (sys : UInt16) (s : UiState) : Prop extends UiStateInv sys s where
  view : QueueView s.queue s.queue.pending
  window : WindowOk s.world.rest

theorem DumpInv.step (h : DumpInv sys s) (hstep : uiStep sys tbl o s act = some (s', offers)) :
    DumpInv sys s' := by
  have hkeeps := uiStep_keeps h.toUiStateInv hstep
  cases act with
  | post event data =>
      simp only [uiStep] at hstep
      split at hstep
      · cases hstep
      · cases hstep
        refine ⟨hkeeps, ?_, h.window⟩
        rcases evtHandlerEvent_view h.view event data with ⟨-, hsame⟩ | ⟨-, hview⟩
        · show QueueView (evtHandlerEvent s.queue event data) _
          rw [hsame]
          exact h.view
        · exact hview.pending_eq.symm ▸ hview
  | serial ser =>
      cases hstep
      exact ⟨hkeeps, h.view, h.window.of_regAddr rfl⟩
  | radio regs =>
      cases hstep
      exact ⟨hkeeps, h.view, h.window.of_regAddr rfl⟩
  | dispatch rv =>
      cases hpending : s.pending with
      | none =>
          simp only [uiStep, hpending] at hstep
          cases hstep
          exact h
      | some e =>
          obtain ⟨w', hround, -, rfl⟩ := uiStep_dispatch_inv hpending hstep
          exact ⟨hkeeps, (h.view.round hpending).2, dispatchEvent_window h.inv h.window hround⟩

end Window

/-! ### Registers on the display -/

/-- A register is on one of the lines of the dump: the line starts with the address of its first
    register, and the value stands in the column of the register. -/
def ShowsRegister (w : World Vars) (r : UInt8) : Prop :=
  ∃ line, 1 ≤ line ∧ line ≤ 5 ∧
    [w.oled.buf (cell line 0), w.oled.buf (cell line 1)] = hex02 97 (r - r % 6) ∧
    [w.oled.buf (cell line (4 + 3 * (r.toNat % 6))),
      w.oled.buf (cell line (5 + 3 * (r.toNat % 6)))] = hex02 97 (w.rest.regs r)

section Scrolling

variable {sys : UInt16} {tbl : CmdTable} {o : PostInc} {rv k : UInt8} {w : World Vars}
  {s : UiState}

/-- The dump shows the 30 registers from the first one on, as far as there are any. -/
theorem dump_shows (h : WindowOk w.rest) {r : UInt8} (hr : r < 128)
    (hlow : w.rest.regAddr.toNat ≤ r.toNat) (hhigh : r.toNat < w.rest.regAddr.toNat + 30) :
    ShowsRegister w.dump r := by
  have halign := h.aligned
  have hlast := h.last
  have hr' : r.toNat < 128 := hr
  -- the line, and the address it starts with
  let i := (r.toNat - w.rest.regAddr.toNat) / 6
  have hi : i < 5 := by
    show (r.toNat - w.rest.regAddr.toNat) / 6 < 5
    omega
  let start := w.rest.regAddr + UInt8.ofNat (6 * i)
  have hstart : start.toNat = r.toNat - r.toNat % 6 := by
    show (w.rest.regAddr + UInt8.ofNat (6 * ((r.toNat - w.rest.regAddr.toNat) / 6))).toNat = _
    rw [UInt8.toNat_add, UInt8.toNat_ofNat']
    omega
  have hsix : (6 : UInt8).toNat = 6 := rfl
  have hstart' : start = r - r % 6 := by
    have hmod : (r % 6).toNat = r.toNat % 6 := by rw [UInt8.toNat_mod, hsix]
    have hle : r % 6 ≤ r := by
      show (r % 6).toNat ≤ r.toNat
      rw [hmod]
      exact Nat.mod_le _ _
    apply UInt8.toNat_inj.mp
    rw [hstart, UInt8.toNat_sub_of_le _ _ hle, hmod]
  have hvalue : dumpBuf w.rest.regs start (r.toNat % 6) = w.rest.regs r := by
    have haddr : start + UInt8.ofNat (r.toNat % 6) = r := by
      apply UInt8.toNat_inj.mp
      rw [UInt8.toNat_add, UInt8.toNat_ofNat', hstart]
      omega
    rw [dumpBuf_eq w.rest.regs (by omega) (Nat.mod_lt _ (by decide)) (by omega) (by omega), haddr]
  have hcell : ∀ {x}, x < lcdCharPerLine → w.dump.oled.buf (cell (1 + i) x) =
      (dumpText start (dumpBuf w.rest.regs start)).getD x 0 :=
    fun hx => dumpRfRegs_cell w.rest.regs w.rest.regAddr w.oled hi hx
  have hcolumn : r.toNat % 6 < 6 := Nat.mod_lt _ (by decide)
  refine ⟨1 + i, Nat.le_add_right 1 i, by omega, ?_, ?_⟩
  · rw [hcell (by decide), hcell (by decide), ← hstart']
    rfl
  · have hlcd : lcdCharPerLine = 21 := rfl
    obtain ⟨hhigh, hlow⟩ := dumpText_value start (dumpBuf w.rest.regs start) hcolumn
    rw [hcell (by omega), hcell (by omega), hhigh, hlow, hvalue]
    rfl

/-! ### Scrolling -/

/-- The application runs and nothing is pending. -/
structure Debugging (sys : UInt16) (s : UiState) : Prop extends DumpInv sys s where
  app : headCb s.world.handlers = some rfDebugNotifyCb
  idle : s.pending = none

/-- A press of one of the two keys, when the variable that is not assigned holds no zero. -/
theorem Debugging.press (h : Debugging sys s) (hk : k = keyUp ∨ k = keyDown) (hrv : rv ≠ 0) :
    ∃ s' offers, run (uiStep sys tbl o) s (press k rv) = some (s', offers) ∧ Debugging sys s' ∧
      s'.world = (rfDebugNotify rv eventKeypress k.toUInt16 s.world).2 := by
  have hnil : s.queue.pending = [] := by
    by_contra hne
    have hidle := h.idle
    rw [UiState.pending, if_pos (h.view.tail_ne_head_iff.mpr hne)] at hidle
    cases hidle
  -- the post
  let q := evtHandlerEvent s.queue eventKeypress k.toUInt16
  have hview : QueueView q [⟨eventKeypress, k.toUInt16⟩] := by
    rcases evtHandlerEvent_view h.view eventKeypress k.toUInt16 with ⟨hfull, -⟩ | ⟨-, hview⟩
    · rw [hnil] at hfull
      exact absurd hfull (by decide)
    · rwa [hnil] at hview
  have hpost :
      uiStep sys tbl o s (.post eventKeypress k.toUInt16) = some ({ s with queue := q }, []) := by
    rw [uiStep, if_neg fun hstart => absurd hstart.1 (by decide)]
  have hpending : UiState.pending { s with queue := q } = some ⟨eventKeypress, k.toUInt16⟩ := by
    rw [UiState.pending, if_pos (hview.tail_ne_head_iff.mpr (List.cons_ne_nil _ _)), hview.oldest]
  -- the round
  have hrv' : (rfDebugNotify rv eventKeypress k.toUInt16 s.world).1 ≠ 0 := by
    have harrow : k.toUInt16 = keyUp.toUInt16 ∨ k.toUInt16 = keyDown.toUInt16 := by
      rcases hk with rfl | rfl
      · exact .inl rfl
      · exact .inr rfl
    rw [rfDebugNotify_key, if_pos harrow]
    exact hrv
  have happ : entered (firmware sys) s.world = [rfDebugNotifyCb] :=
    h.inv.entered_of_headCb (by decide) h.app
  have hcall : handlerCall sys tbl o rv ⟨eventKeypress, k.toUInt16⟩ rfDebugNotifyCb s.world =
      some (true, (rfDebugNotify rv eventKeypress k.toUInt16 s.world).2) := by
    show some (decide ((rfDebugNotify rv eventKeypress k.toUInt16 s.world).1 ≠ 0), _) = _
    rw [decide_eq_true hrv']
  have hkeeps := rfDebugNotify_keeps rv eventKeypress k.toUInt16 s.world
  have hround := uiStep_dispatch hpending (h.inv.dispatch_consumed happ hcall)
    (hkeeps.bootloader.trans h.running)
  have hposted := h.toDumpInv.step hpost
  have hdone := hposted.step hround
  refine ⟨_, _, run_cons hpost (run_cons hround (run_nil _)), ⟨hdone, ?_, ?_⟩, rfl⟩
  · show headCb (rfDebugNotify rv eventKeypress k.toUInt16 s.world).2.handlers = _
    rw [hkeeps.handlers]
    exact h.app
  · have hempty : QueueView q.advance [] := advance_view hview
    show (if q.advance.qTail ≠ q.advance.qHead then _ else none) = none
    exact if_neg fun hne => hempty.tail_ne_head_iff.mp hne rfl

/-- Any presses of the two keys: the window moves as the numbers do, and what is on the display is
    the dump of the registers as they are. -/
theorem Debugging.scroll {presses : List (UInt8 × UInt8)} (h : Debugging sys s)
    (hkeys : ∀ p ∈ presses, (p.1 = keyUp ∨ p.1 = keyDown) ∧ p.2 ≠ 0) :
    ∃ s' offers,
      run (uiStep sys tbl o) s (presses.flatMap fun p => RfPirate.press p.1 p.2) =
        some (s', offers) ∧
      Debugging sys s' ∧ s'.world.rest.regs = s.world.rest.regs ∧
      s'.world.rest.regAddr.toNat =
        (presses.map Prod.fst).foldl scrollKey s.world.rest.regAddr.toNat ∧
      (presses ≠ [] → ∃ w, s'.world = World.dump w) := by
  induction presses generalizing s with
  | nil => exact ⟨s, [], rfl, h, rfl, rfl, fun hne => absurd rfl hne⟩
  | cons p presses ih =>
      obtain ⟨k, rv⟩ := p
      obtain ⟨hk, hrv⟩ := hkeys (k, rv) List.mem_cons_self
      obtain ⟨s₁, offers₁, hpress, hdebug₁, hworld₁⟩ := h.press hk hrv
      obtain ⟨s', offers', hrun, hdebug, hregs, haddr, hdump⟩ :=
        ih hdebug₁ fun p' hp' => hkeys p' (List.mem_cons_of_mem _ hp')
      obtain ⟨v, hv, hregs₁, hscroll⟩ := rfDebugNotify_scroll rv hk h.window
      have haddr₁ : s₁.world.rest.regAddr.toNat = scrollKey s.world.rest.regAddr.toNat k := by
        rw [hworld₁, hv]
        exact hscroll
      refine ⟨s', _, run_append hpress hrun, hdebug, ?_, ?_, fun _ => ?_⟩
      · rw [hregs, hworld₁, hv]
        exact hregs₁
      · rw [haddr, haddr₁]
        rfl
      · by_cases hnil : presses = []
        · subst hnil
          cases hrun
          exact ⟨_, hworld₁.trans hv⟩
        · exact hdump hnil

/-- `n` times up. -/
theorem foldl_keyUp (n a : Nat) : (List.replicate n keyUp).foldl scrollKey a = a - 6 * n := by
  induction n generalizing a with
  | zero => rfl
  | succ n ih =>
      rw [List.replicate_succ, List.foldl_cons, ih, scrollKey, if_pos rfl]
      omega

/-- `n` times down from the first line. -/
theorem foldl_keyDown {n a : Nat} (ha : a ≤ 102) :
    (List.replicate n keyDown).foldl scrollKey a = min (a + 6 * n) 102 := by
  have hne : ¬ keyDown = keyUp := by decide
  induction n generalizing a with
  | zero => exact (min_eq_left ha).symm
  | succ n ih =>
      rw [List.replicate_succ, List.foldl_cons, scrollKey, if_neg hne, ih (min_le_right _ _)]
      omega

/-- The keys that bring a register on the display: up to the first line, and down as far as its
    own, unless the window ends before. -/
def keysTo (r : UInt8) : List UInt8 :=
  List.replicate 17 keyUp ++ List.replicate (r.toNat / 6) keyDown

theorem mem_keysTo {r : UInt8} (h : k ∈ keysTo r) : k = keyUp ∨ k = keyDown := by
  rcases List.mem_append.mp h with hup | hdown
  · exact .inl (List.eq_of_mem_replicate hup)
  · exact .inr (List.eq_of_mem_replicate hdown)

theorem foldl_keysTo (r : UInt8) {a : Nat} (ha : a ≤ 102) :
    (keysTo r).foldl scrollKey a = min (6 * (r.toNat / 6)) 102 := by
  rw [keysTo, List.foldl_append, foldl_keyUp, foldl_keyDown (by omega)]
  omega

end Scrolling

/-- In every run from `ui_setup` on, with any events posted and any values of the unassigned
    variable, the last line of the window on the registers is 0x7e at most. And whenever the
    application runs and nothing is pending, the two keys bring each of the 128 registers on the
    display, with its value, if that variable is not zero in any of these presses. -/
theorem rfDebug_dump (sys : UInt16) (tbl : CmdTable) (o : PostInc) (regs : RegFile)
    (ser : UsbSerial) :
    ∃ w, uiSetup sys (uiZero regs ser) = some w ∧ ∀ acts s offers,
      run (uiStep sys tbl o) ⟨.zero, w⟩ acts = some (s, offers) →
        WindowOk s.world.rest ∧
        (headCb s.world.handlers = some rfDebugNotifyCb → s.pending = none → ∀ r < 128,
          ∃ keys : List UInt8, (∀ k ∈ keys, k = keyUp ∨ k = keyDown) ∧
            ∀ presses : List (UInt8 × UInt8), presses.map Prod.fst = keys →
              (∀ p ∈ presses, p.2 ≠ 0) → ∃ s' offers',
                run (uiStep sys tbl o) s (presses.flatMap fun p => press p.1 p.2) =
                  some (s', offers') ∧
                s'.world.rest.regs = s.world.rest.regs ∧ ShowsRegister s'.world r) := by
  obtain ⟨w, hsetup, hinit⟩ := uiSetup_inv sys regs ser
  have hwindow : WindowOk w.rest := by
    have haddr : w.rest.regAddr = 0 := by
      rw [uiSetup_eq] at hsetup
      obtain ⟨cnt, oled, buf, -, rfl⟩ := drawMenu_eq hsetup
      rfl
    exact ⟨by rw [haddr]; rfl, by rw [haddr]; decide⟩
  have hempty : QueueView EventQueue.zero EventQueue.zero.pending :=
    QueueView.zero.pending_eq.symm ▸ QueueView.zero
  refine ⟨w, hsetup, fun acts s offers hrun => ?_⟩
  have hkeeps : ∀ s (_ : List Offer) act s' offers, DumpInv sys s →
      uiStep sys tbl o s act = some (s', offers) → DumpInv sys s' :=
    fun _ _ _ _ _ h hstep => h.step hstep
  have hinv : DumpInv sys s := run_induction hkeeps ⟨hinit, hempty, hwindow⟩ hrun
  refine ⟨hinv.window, fun happ hidle r hr => ⟨keysTo r, fun k => mem_keysTo, ?_⟩⟩
  intro presses hpresses hrvs
  have hdebug : Debugging sys s := ⟨hinv, happ, hidle⟩
  have hkeys : ∀ p ∈ presses, (p.1 = keyUp ∨ p.1 = keyDown) ∧ p.2 ≠ 0 := fun p hp =>
    ⟨mem_keysTo (hpresses ▸ List.mem_map_of_mem hp), hrvs p hp⟩
  have hne : presses ≠ [] := by
    rintro rfl
    exact absurd hpresses (List.append_ne_nil_of_left_ne_nil (by decide) _).symm
  obtain ⟨s', offers', hscroll, hdebug', hregs, haddr, hdump⟩ := hdebug.scroll (o := o) hkeys
  obtain ⟨w', hw'⟩ := hdump hne
  have hlast := hinv.window.last
  have hr' : r.toNat < 128 := hr
  rw [hpresses, foldl_keysTo r (by omega)] at haddr
  refine ⟨s', offers', hscroll, hregs, ?_⟩
  have hrest : w'.rest = s'.world.rest := by rw [hw']; rfl
  rw [hw']
  refine dump_shows (hrest ▸ hdebug'.window) hr ?_ ?_ <;>
  · rw [hrest, haddr]
    omega

end RfPirate
