/-
Module: RfPirate.Proofs.BatteryIcon
Layer: Proofs
Purpose: The icon line of the display. The menu draws on its own lines and the header, and all that
  the firmware prints goes to lines 1 to 6, but for the radio events that `rf_event_notify` prints
  on line 7. So the battery icon stays until one of these is dispatched to it, and the first one
  takes it away.
Main exports: drawMenu_same, keyHandler_keeps, IconShown, IconLaw, IconOk, batteryIcon_stays,
  batteryIcon_stays_fails
-/
import RfPirate.Proofs.MenuScreen
import RfPirate.Proofs.Ui

namespace RfPirate

open Lib Lib.CString Lib.Machine

/-! ### Lines the menu does not draw on -/

section Lines

variable {σ : Type*} {P : Program σ} {w w' : World σ} {top selected l : Nat}

/-- A round of the loop writes on its own line. -/
theorem drawEntry_same {i : Nat} {d d' : Ssd1306} {buf buf' : Nat → UInt8}
    (h : drawEntry P w top selected i d buf = some (d', buf')) (hl : l < lcdCharLines)
    (hline : (i + w.menu.lineStart) % 256 < lcdCharLines) (hne : l ≠ (i + w.menu.lineStart) % 256) :
    SameLine d d' l := by
  have hcleared := clearline_same (d := d) hline hl hne
  unfold drawEntry at h
  simp only at h
  split at h
  · cases h
    exact hcleared
  split at h
  · cases h
    exact hcleared.trans (drawText_same hline hl hne _ _ _)
  split at h
  · cases h
  · cases h
    exact (hcleared.trans (drawText_same hline hl hne _ _ _)).trans (drawDir_same hline hl hne _ _)

/-- The loop leaves the lines behind it alone. -/
theorem drawEntries_same (hl : l < lcdCharLines) :
    ∀ (n i : Nat) {d d' : Ssd1306} {buf buf' : Nat → UInt8},
      drawEntries P w top selected n i d buf = some (d', buf') →
      w.menu.lineStart + i + n ≤ l → SameLine d d' l
  | 0, i, d, d', buf, buf', h, _ => by
      cases h
      exact .refl d l
  | n + 1, i, d, d', buf, buf', h, hlast => by
      rw [drawEntries] at h
      split at h
      · cases h
      · rename_i d₁ buf₁ hentry
        have hmod : (i + w.menu.lineStart) % 256 = i + w.menu.lineStart :=
          Nat.mod_eq_of_lt (by simp only [lcdCharLines] at hl; omega)
        have hfirst : SameLine d d₁ l :=
          drawEntry_same hentry hl (by rw [hmod]; omega) (by rw [hmod]; omega)
        exact hfirst.trans (drawEntries_same hl n (i + 1) h (by omega))

theorem drawArrows_same {d : Ssd1306} (hl : l < lcdCharLines) (hfirst : w.menu.lineStart < l)
    (hlast : w.menu.lineEnd < l) (itemsAbove itemsBelow : Bool) :
    SameLine d (drawArrows w itemsAbove itemsBelow d) l := by
  have harrow : ∀ d' line icon (b : Bool), line < l →
      SameLine d' (if b then drawstring d' line 20 icon false else d') l := by
    intro d' line icon b hline
    cases b with
    | false => exact .refl d' l
    | true =>
        rw [if_pos rfl]
        exact drawstring_same (Nat.lt_trans hline hl) hl (Nat.ne_of_gt hline)
  exact (harrow d _ _ itemsAbove hfirst).trans (harrow _ _ _ itemsBelow hlast)

/-- `DrawMenu` leaves the lines below the menu alone, enabled or not. -/
theorem drawMenu_same (h : drawMenu P w = some w') (hl : l < lcdCharLines)
    (hfirst : w.menu.lineStart < l) (hlast : w.menu.lineEnd < l)
    (hlines : w.menu.lineStart + w.menu.visibleLines ≤ l) : SameLine w.oled w'.oled l := by
  unfold drawMenu at h
  split at h
  · cases h
  · rename_i cnt _
    simp only at h
    split at h
    · cases h
    · rename_i oled buf hvisible
      cases h
      cases hheader : header P (w.setCur { w.cur with numEntries := cnt }) with
      | none => simp [drawVisible, hheader] at hvisible
      | some text =>
          rw [drawVisible_eq hheader] at hvisible
          obtain ⟨⟨d, buf'⟩, hentries, hdrawn⟩ := Option.map_eq_some_iff.mp hvisible
          have hd : drawArrows (w.setCur { w.cur with numEntries := cnt }) _ _ d = oled :=
            congrArg Prod.fst hdrawn
          have hbody := (drawHeader_same w.oled text hl (by omega)).trans
            (drawEntries_same hl _ 0 hentries hlines)
          show SameLine w.oled oled l
          rw [← hd]
          exact hbody.trans (drawArrows_same hl hfirst hlast _ _)

end Lines

/-! ### What a key keeps -/

section Keys

variable {σ : Type*} {P : Program σ} {fuel : Nat} {w w' : World σ} {offers : List Offer}

/-- Display, lines of the menu and the rest of the world are the same. -/
structure SameScreen (w w' : World σ) : Prop where
  lineStart : w'.menu.lineStart = w.menu.lineStart
  lineEnd : w'.menu.lineEnd = w.menu.lineEnd
  visibleLines : w'.menu.visibleLines = w.menu.visibleLines
  oled : w'.oled = w.oled
  rest : w'.rest = w.rest

/-- A predicate on the screen and the rest that app events, exec functions and drawing keep is kept
    by every key. -/
theorem keyHandler_keeps {inv : World σ → Prop}
    (hscreen : ∀ w w', SameScreen w w' → inv w → inv w')
    (hcall : ∀ cb event data w, event = eventAppStart ∨ event = eventAppStop → inv w →
      inv (P.call cb event data w).2)
    (hexec : ∀ f w, inv w → inv (P.exec f w))
    (hdraw : ∀ w w', drawMenu P w = some w' → inv w → inv w') {k : UInt8} (hw : inv w)
    (h : keyHandler P fuel w k = some (w', offers)) : inv w' := by
  have hsync : ∀ {event data w w' offers}, event = eventAppStart ∨ event = eventAppStop →
      evtHandlerSyncevent P.callbacks event data fuel w = some (w', offers) → inv w → inv w' :=
    fun hevent hsync hw => syncevent_keeps (fun cb w hw => hcall cb _ _ w hevent hw) hsync hw
  obtain ⟨w₁, heffect, hdrawn⟩ := keyHandler_effect h
  refine hdraw w₁ w' hdrawn ?_
  cases heffect with
  | up eq =>
      subst eq
      refine hscreen w _ ?_ hw
      unfold keyUpCase
      split <;> exact ⟨rfl, rfl, rfl, rfl, rfl⟩
  | down eq =>
      subst eq
      refine hscreen w _ ?_ hw
      unfold keyDownCase
      split
      · exact ⟨rfl, rfl, rfl, rfl, rfl⟩
      split <;> exact ⟨rfl, rfl, rfl, rfl, rfl⟩
  | left case =>
      cases keyLeftCase_effect case with
      | close opened eq => exact hscreen w _ (eq ▸ ⟨rfl, rfl, rfl, rfl, rfl⟩) hw
      | root closed idx eq => exact eq ▸ hw
      | leave closed idx unset eq => exact hscreen w _ (eq ▸ ⟨rfl, rfl, rfl, rfl, rfl⟩) hw
      | leaveApp closed idx set stop eq =>
          have hsent := hsync (.inr rfl) stop (hscreen w _ ⟨rfl, rfl, rfl, rfl, rfl⟩ hw)
          exact hscreen _ _ (eq ▸ ⟨rfl, rfl, rfl, rfl, rfl⟩) hsent
  | right case =>
      cases keyRightCase_effect case with
      | openDrop closed eq => exact hscreen w _ (eq ▸ ⟨rfl, rfl, rfl, rfl, rfl⟩) hw
      | enter entry eq => exact hscreen w _ (eq ▸ ⟨rfl, rfl, rfl, rfl, rfl⟩) hw
      | enterApp entry start sub eq =>
          have hsent := hsync (.inl rfl) start (hscreen w _ ⟨rfl, rfl, rfl, rfl, rfl⟩ hw)
          exact hscreen _ _ (eq ▸ ⟨rfl, rfl, rfl, rfl, rfl⟩) hsent
      | nothing leaf eq => exact eq ▸ hw
  | select eq =>
      subst eq
      unfold keySelectCase
      split
      · exact hexec _ w hw
      · exact hw
  | other up down left right eq => exact eq ▸ hw

end Keys

/-! ### The icon -/

/-- The two cells hold the parts of icon 0, and `display` draws the current battery icon there. -/
structure IconShown (w : World Vars) : Prop where
  cells : ∀ i < 2, w.oled.buf (cell 7 (19 + i)) = iconCell 0 i
  shown : ∀ i < 2, displayCell w.rest.icon (iconBytes w.rest.battIcon) w.oled 7 (19 + i) =
    some ((w.rest.battIcon.bitmap.drop (6 * i)).take 6)

/-- The icon is in its cells, its callback is registered, and the menu keeps to its lines. -/
structure IconInv (w : World Vars) : Prop where
  lineStart : w.menu.lineStart = 1
  lineEnd : w.menu.lineEnd = 5
  visibleLines : w.menu.visibleLines ≤ 5
  icon : w.rest.icon 0 = some iconCbFn
  cells : ∀ i < 2, w.oled.buf (cell 7 (19 + i)) = iconCell 0 i
  upright : ∀ i < 2, invBit w.oled 7 (19 + i) = false

section Icon

variable {sys : UInt16} {tbl : CmdTable} {o : PostInc} {rv : UInt8} {e : EventT}
  {w w' : World Vars} {s s' : UiState}

/-- A cell of icon 0 names the icon and the part. -/
theorem iconCell_zero : ∀ i < 2, iconCell 0 i &&& lcdIconFlag ≠ 0 ∧
    (iconCell 0 i >>> 3) &&& 0xf = 0 ∧ (iconCell 0 i &&& 0x7).toNat = i := by decide

theorem drawSlices_bitmap (batt : BattIcon) : ∀ i < 2,
    drawSlices batt.bitmap (i * 6) true false = some ((batt.bitmap.drop (6 * i)).take 6) := by
  cases batt <;> decide

theorem IconInv.shown (h : IconInv w) : IconShown w := by
  refine ⟨h.cells, fun i hi => ?_⟩
  obtain ⟨hflag, hidx, hpart⟩ := iconCell_zero i hi
  have hbytes : iconBytes w.rest.battIcon iconCbFn 0 = w.rest.battIcon.bitmap := rfl
  have hupright : decide (w.oled.invertMask (19 + i) &&& lineBit 7 ≠ 0) = false := h.upright i hi
  have hidx' : (0 : UInt8).toNat = 0 := rfl
  have hmax : ¬ 0 ≥ lcdMaxIcon := by decide
  simp only [displayCell, h.cells i hi]
  rw [if_pos hflag, hidx, hidx', if_neg hmax, h.icon, hpart, hupright]
  simp only [hbytes]
  exact drawSlices_bitmap w.rest.battIcon i hi

/-- Lines that are kept keep the icon. -/
theorem IconInv.same (h : IconInv w) (hstart : w'.menu.lineStart = w.menu.lineStart)
    (hend : w'.menu.lineEnd = w.menu.lineEnd) (hlines : w'.menu.visibleLines ≤ 5)
    (hicon : w'.rest.icon = w.rest.icon) (hline : SameLine w.oled w'.oled 7) : IconInv w' where
  lineStart := hstart.trans h.lineStart
  lineEnd := hend.trans h.lineEnd
  visibleLines := hlines
  icon := by rw [hicon, h.icon]
  cells i hi :=
    (hline.chars (19 + i) (by simp only [lcdCharPerLine]; omega)).trans (h.cells i hi)
  upright i hi :=
    (hline.mask (19 + i) (by simp only [lcdCharPerLine]; omega)).trans (h.upright i hi)

/-- What does not draw on line 7 keeps the icon. -/
theorem IconInv.keeps {ls : List Nat} (h : IconInv w) (hkeeps : AppKeeps ls w w') (hls : 7 ∉ ls) :
    IconInv w' := by
  refine h.same hkeeps.lineStart hkeeps.lineEnd ?_ hkeeps.icon (hkeeps.oled 7 (by decide) hls)
  rcases hkeeps.visibleLines with hsame | hzero | hcount
  · rw [hsame]
    exact h.visibleLines
  · rw [hzero]
    exact Nat.zero_le 5
  · rw [hcount, h.lineStart, h.lineEnd]
    decide

theorem IconInv.draw (h : IconInv w) {P : Program Vars} (hdraw : drawMenu P w = some w') :
    IconInv w' := by
  have hfirst := h.lineStart
  have hlast := h.lineEnd
  have hlines := h.visibleLines
  have hline : SameLine w.oled w'.oled 7 :=
    drawMenu_same hdraw (by decide) (by omega) (by omega) (by omega)
  obtain ⟨cnt, oled, buf, -, rfl⟩ := drawMenu_eq hdraw
  exact h.same rfl rfl h.visibleLines rfl hline

theorem uiSetup_icon {regs : RegFile} {ser : UsbSerial}
    (h : uiSetup sys (uiZero regs ser) = some w) : IconInv w := by
  have hundrawn : IconInv (uiUndrawn regs ser) := by
    refine ⟨rfl, rfl, Nat.le_refl 5, rfl, ?_, ?_⟩
    · show ∀ i < 2, (drawicon .zero 0 7 19 2).buf (cell 7 (19 + i)) = iconCell 0 i
      decide
    · show ∀ i < 2, invBit (drawicon .zero 0 7 19 2) 7 (19 + i) = false
      decide
  rw [uiSetup_eq] at h
  exact hundrawn.draw h

/-! ### Rounds -/

/-- The radio events whose code is one of the labels that print on line 7. -/
theorem rfEventLine_eq {event : UInt8} : rfEventLine event = 6 ↔
    event ≠ eventIsrFifoRxhi ∧ event.toUInt16 ≠ isrSyncDet ∧ event.toUInt16 ≠ isrValPrmDet := by
  unfold rfEventLine
  split
  · rename_i hbad
    simp only [ne_eq, ← not_or]
    exact iff_of_false (by decide) (not_not.mpr hbad)
  · rename_i hgood
    exact iff_of_true rfl (by simpa [not_or] using hgood)

theorem appEvent_line {event : UInt8} (h : event = eventAppStart ∨ event = eventAppStop) :
    rfEventLine event = 6 := by
  rcases h with rfl | rfl <;> decide

/-- Every key keeps the icon. -/
theorem IconInv.keyHandler (h : IconInv w) {k : UInt8} (hkey : uiKeyHandler sys k w = some w') :
    IconInv w' := by
  obtain ⟨⟨w₁, offers⟩, hhandler, rfl⟩ := Option.map_eq_some_iff.mp hkey
  refine keyHandler_keeps ?_ ?_ ?_ ?_ h hhandler
  · intro w w' hsame hw
    refine hw.same hsame.lineStart hsame.lineEnd (hsame.visibleLines ▸ hw.visibleLines) ?_ ?_
    · rw [hsame.rest]
    · rw [hsame.oled]
      exact .refl _ 7
  · intro cb event data w hevent hw
    refine hw.keeps (firmware_call_keeps cb event data w) ?_
    rw [appEvent_line hevent]
    decide
  · intro f w hw
    show IconInv (execute f w)
    rcases execute_keeps f w with heq | hkeeps
    · rw [heq]
      exact hw.same rfl rfl hw.visibleLines rfl (.refl _ 7)
    · exact hw.keeps hkeeps (by decide)
  · exact fun w w' hdraw hw => hw.draw hdraw

/-- Every handler keeps the icon, but for those events of `rf_event_notify`. -/
theorem IconInv.handlerCall (h : IconInv w) {cb : EventNotifyCb} {r : Bool × World Vars}
    (hevent : cb = rfEventNotifyCb → rfEventLine e.event = 6)
    (hcall : RfPirate.handlerCall sys tbl o rv e cb w = some r) : IconInv r.2 := by
  obtain ⟨⟨rv', w'⟩, hcb, rfl⟩ := Option.map_eq_some_iff.mp hcall
  show IconInv w'
  rcases callback_cases hcb with ⟨-, -, hmenu | hkeeps⟩ | ⟨hrf, hkeeps⟩ | ⟨-, hkeeps⟩
  · exact h.keyHandler hmenu
  · exact h.keeps hkeeps (by decide)
  · rw [hevent hrf] at hkeeps
    exact h.keeps hkeeps (by decide)
  · exact h.keeps hkeeps (by decide)

/-- With those events the first cell of the icon is cleared, and the event is passed on. -/
theorem rfEventNotify_lost {event : UInt8} (hevent : rfEventLine event ≠ 6) (data : UInt16)
    (w : World Vars) :
    ∃ w', rfEventNotify event data w = (0, w') ∧ w'.oled.buf (cell 7 19) = 0 := by
  have hprint : ∀ text : List UInt8, text.length ≤ 19 →
      (w.draw (print 7 (fun _ => text) 0)).oled.buf (cell 7 19) = 0 := by
    intro text htext
    have hcovers : ¬ Covers 7 0 (text.take 20).length 7 19 := by
      simp only [Covers, List.length_take]
      omega
    show (drawstring (clearline w.oled 7) 7 0 (text.take 20) false).buf (cell 7 19) = 0
    rw [drawstring_cell _ _ _ (by decide) (by decide), if_neg hcovers,
      clearline_cell _ 7 (by decide), if_pos rfl]
  have hevents : event = eventIsrFifoRxhi ∨ event.toUInt16 = isrSyncDet ∨
      event.toUInt16 = isrValPrmDet := by
    rw [ne_eq, rfEventLine_eq] at hevent
    by_contra hnot
    simp only [not_or] at hnot
    exact hevent hnot
  rcases hevents with rfl | hsync | hprm
  · exact ⟨_, rfl, hprint (ascii "RX fifo hi") (by decide)⟩
  · obtain rfl : event = 0x80 := UInt8.toUInt16_inj.mp hsync
    exact ⟨_, rfl, hprint (ascii "SYNC det") (by decide)⟩
  · obtain rfl : event = 0x40 := UInt8.toUInt16_inj.mp hprm
    exact ⟨_, rfl, hprint (ascii "PREAMBLE det") (by decide)⟩

/-! ### The law -/

/-- What a step has to satisfy: the icon is shown afterwards. -/
def IconLaw (sys : UInt16) (tbl : CmdTable) (o : PostInc) (s : UiState) (act : UiAct) : Prop :=
  After (uiStep sys tbl o) (fun s => IconShown s.world) s act

/-- While `rf_event_notify` is registered, no event is dispatched whose code is that of
    `EVENT_ISR_FIFO_RXHI`, `ISR_SYNC_DET` or `ISR_VAL_PRM_DET`. -/
def IconOk (s : UiState) : UiAct → Prop
  | .dispatch _ => headCb s.world.handlers = some rfEventNotifyCb → ∀ e ∈ s.pending,
      e.event ≠ eventIsrFifoRxhi ∧ e.event.toUInt16 ≠ isrSyncDet ∧
        e.event.toUInt16 ≠ isrValPrmDet
  | _ => True

/-- A step that the condition allows keeps the icon. -/
theorem IconInv.step (h : UiStateInv sys s) (hicon : IconInv s.world) {act : UiAct}
    (hok : IconOk s act) {offers : List Offer}
    (hstep : uiStep sys tbl o s act = some (s', offers)) : IconInv s'.world := by
  rcases uiStep_cases hstep with hkeeps | ⟨rv, e, w', rfl, hpending, hround, -, rfl⟩
  · exact hicon.keeps hkeeps List.not_mem_nil
  rw [h.inv.dispatchEvent_eq] at hround
  obtain ⟨r, hoffer, hw'⟩ := Option.map_eq_some_iff.mp hround
  obtain rfl : r.1 = w' := congrArg Prod.fst hw'
  refine offerTo_keeps (fun cb hcb w r hw hcall => hw.handlerCall (fun hrf => ?_) hcall)
    hicon hoffer
  have hhead : headCb s.world.handlers = some rfEventNotifyCb := by
    rw [hrf] at hcb
    exact h.inv.headCb_of_mem (by decide) hcb
  exact rfEventLine_eq.mpr (hok hhead e hpending)

/-- Where the condition fails the round ends with the icon gone. -/
theorem UiStateInv.icon_lost (h : UiStateInv sys s)
    (hhead : headCb s.world.handlers = some rfEventNotifyCb) (hpending : s.pending = some e)
    (hevent : rfEventLine e.event ≠ 6) (rv : UInt8) :
    ∃ s' offers, uiStep sys tbl o s (.dispatch rv) = some (s', offers) ∧
      s'.world.oled.buf (cell 7 19) = 0 := by
  have happ := h.inv.entered_of_headCb (by decide) hhead
  have hkey : e.event ≠ eventKeypress := fun heq => hevent (by rw [heq]; decide)
  have hkeeps := rfEventNotify_keeps e.event e.data s.world
  obtain ⟨w₁, hrf, hcell⟩ := rfEventNotify_lost hevent e.data s.world
  have hline : e.event ≠ eventSerialRecv := fun heq => hevent (by rw [heq]; decide)
  obtain ⟨w₂, hbase⟩ := uiEventNotify_total hkey hline tbl o (uiKeyHandler sys) e.data w₁
  have hkeeps' := (uiEventNotify_keeps hkey hbase).2
  rw [hrf] at hkeeps
  have hcall : RfPirate.handlerCall sys tbl o rv e rfEventNotifyCb s.world = some (false, w₁) := by
    show some (decide ((rfEventNotify e.event e.data s.world).1 ≠ 0), _) = _
    rw [hrf]
    rfl
  have hrunning : w₂.rest.bootloader = false := by
    rw [hkeeps'.bootloader, hkeeps.bootloader, h.running]
  refine ⟨_, _, uiStep_dispatch hpending (h.inv.dispatch_passed happ hcall hbase) hrunning, ?_⟩
  show w₂.oled.buf (cell 7 19) = 0
  rw [(hkeeps'.oled 7 (by decide) (by decide)).chars 19 (by decide), hcell]

theorem iconLaw_iff (h : UiStateInv sys s) (hicon : IconInv s.world) (act : UiAct) :
    IconLaw sys tbl o s act ↔ IconOk s act := by
  constructor
  · intro hlaw
    cases act with
    | post event data => trivial
    | serial ser => trivial
    | radio regs => trivial
    | dispatch rv =>
        intro hhead e hpending
        by_contra hbad
        obtain ⟨s', offers, hstep, hcell⟩ :=
          h.icon_lost hhead hpending (mt rfEventLine_eq.mp hbad) rv
        have hshown := (hlaw s' offers hstep).cells 0 (by decide)
        rw [Nat.add_zero, hcell] at hshown
        exact absurd hshown (by decide)
  · exact fun hok s' offers hstep => (hicon.step h hok hstep).shown

end Icon

/-- `ui_setup` shows the battery icon. In every run from there on, with any events posted and any
    values of the unassigned variable, it is still shown after every step if and only if no event
    with one of the three codes that print on line 7 is dispatched while `rf_event_notify` is
    registered. -/
theorem batteryIcon_stays (sys : UInt16) (tbl : CmdTable) (o : PostInc) (regs : RegFile)
    (ser : UsbSerial) :
    ∃ w, uiSetup sys (uiZero regs ser) = some w ∧ IconShown w ∧ ∀ acts,
      (Guarded (uiStep sys tbl o) (IconLaw sys tbl o) ⟨.zero, w⟩ acts ↔
        Guarded (uiStep sys tbl o) IconOk ⟨.zero, w⟩ acts) := by
  obtain ⟨w, hsetup, hinit⟩ := uiSetup_inv sys regs ser
  have hicon := uiSetup_icon hsetup
  refine ⟨w, hsetup, hicon.shown, fun acts => ?_⟩
  have hkeeps : ∀ s act s' offers, UiStateInv sys s ∧ IconInv s.world → IconOk s act →
      uiStep sys tbl o s act = some (s', offers) → UiStateInv sys s' ∧ IconInv s'.world :=
    fun s act s' offers h hok hstep => ⟨uiStep_keeps h.1 hstep, h.2.step h.1 hok hstep⟩
  exact guarded_iff (fun s act h => iconLaw_iff h.1 h.2 act) hkeeps ⟨hinit, hicon⟩

/-- The RF application is entered and the radio reports that its FIFO is filling up: the message
    clears the line of the icon. -/
theorem batteryIcon_stays_fails :
    ∃ w s offers,
      uiSetup 256 (uiZero (fun _ => 0) .zero) = some w ∧
      run (uiStep 256 cmdTbl .unchanged) ⟨.zero, w⟩
        [.post eventKeypress keyRight.toUInt16, .dispatch 0, .post eventIsrFifoRxhi 0,
          .dispatch 0] = some (s, offers) ∧
      s.world.oled.buf (cell 7 19) = 0 ∧ s.world.oled.buf (cell 7 20) = 0 ∧
      ¬ IconShown s.world ∧
      ¬ Guarded (uiStep 256 cmdTbl .unchanged) (IconLaw 256 cmdTbl .unchanged) ⟨.zero, w⟩
        [.post eventKeypress keyRight.toUInt16, .dispatch 0, .post eventIsrFifoRxhi 0,
          .dispatch 0] := by
  have hrun : ((uiSetup 256 (uiZero (fun _ => 0) .zero)).bind fun w =>
      (run (uiStep 256 cmdTbl .unchanged) ⟨.zero, w⟩
        [.post eventKeypress keyRight.toUInt16, .dispatch 0, .post eventIsrFifoRxhi 0,
          .dispatch 0]).map fun r =>
        (r.1.world.oled.buf (cell 7 19), r.1.world.oled.buf (cell 7 20))) = some (0, 0) := by
    decide +kernel
  obtain ⟨w, hsetup, hrest⟩ := Option.bind_eq_some_iff.mp hrun
  obtain ⟨⟨s, offers⟩, hreach, hcells⟩ := Option.map_eq_some_iff.mp hrest
  obtain ⟨hfirst, hsecond⟩ := Prod.mk.inj hcells
  have hlost : ¬ IconShown s.world := by
    intro hshown
    have hcell := hshown.cells 0 (by decide)
    rw [Nat.add_zero, hfirst] at hcell
    exact absurd hcell (by decide)
  refine ⟨w, s, offers, hsetup, hreach, hfirst, hsecond, hlost, fun hlaw => hlost ?_⟩
  have hsteps : ∀ s (_ : List Offer) act s' offers, IconShown s.world →
      IconLaw 256 cmdTbl .unchanged s act →
      uiStep 256 cmdTbl .unchanged s act = some (s', offers) → IconShown s'.world :=
    fun s _ act s' offers _ hlaw hstep => hlaw s' offers hstep
  have hend := run_guarded_induction _ hsteps (uiSetup_icon hsetup).shown hlaw hreach
  exact hend

end RfPirate
