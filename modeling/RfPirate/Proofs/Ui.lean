/-
Module: RfPirate.Proofs.Ui
Layer: Proofs
Purpose: The firmware of `ui.cpp` as an instance of the menu and handler theory: its menus are a
  tree of two levels, its applications leave menu stack and handler list alone, and a round of
  `evt_handler_dispatch` offers its event to the application that is running, if there is one, and
  then to the base handler. From `ui_setup` on every round keeps this, and returns unless it ends in
  the bootloader or in the parse of a line.
Main exports: AppKeeps, rfEventNotify_keeps, rfDebugNotify_keeps, firmware_tree, UiInv,
  callback_cases, UiInv.dispatchEvent_eq, UiInv.dispatch, UiInv.dispatch_keeps, uiStep_cases,
  uiStep_keeps, uiSetup_inv
-/
import RfPirate.Core.Ui
import RfPirate.Lib.Offering
import RfPirate.Proofs.MenuHandlers
import RfPirate.Proofs.Ssd1306

namespace RfPirate

open Lib Lib.Machine

/-! ### What applications leave alone -/

/-- What event handlers of applications, and what the menu executes, leave alone: the menu stack and
    the lines of the menu, the handler list, the icons, the control, and all lines of the display
    but `ls`. They may enable and disable the menu. -/
structure AppKeeps (ls : List Nat) (w w' : World Vars) : Prop where
  stack : SameStack w w'
  lineStart : w'.menu.lineStart = w.menu.lineStart
  lineEnd : w'.menu.lineEnd = w.menu.lineEnd
  visibleLines : w'.menu.visibleLines = w.menu.visibleLines ∨ w'.menu.visibleLines = 0 ∨
    w'.menu.visibleLines = lineCount w.menu.lineStart w.menu.lineEnd
  handlers : w'.handlers = w.handlers
  icon : w'.rest.icon = w.rest.icon
  bootloader : w'.rest.bootloader = w.rest.bootloader
  oled : ∀ l < lcdCharLines, l ∉ ls → SameLine w.oled w'.oled l

namespace AppKeeps

variable {ls : List Nat} {w w' w'' : World Vars}

theorem refl (ls : List Nat) (w : World Vars) : AppKeeps ls w w :=
  ⟨.refl w, rfl, rfl, .inl rfl, rfl, rfl, rfl, fun l _ _ => .refl w.oled l⟩

theorem trans (h : AppKeeps ls w w') (h' : AppKeeps ls w' w'') : AppKeeps ls w w'' := by
  refine ⟨h.stack.trans h'.stack, h'.lineStart.trans h.lineStart, h'.lineEnd.trans h.lineEnd, ?_,
    h'.handlers.trans h.handlers, h'.icon.trans h.icon, h'.bootloader.trans h.bootloader,
    fun l hl hls => (h.oled l hl hls).trans (h'.oled l hl hls)⟩
  have hlines := h'.visibleLines
  rw [h.lineStart, h.lineEnd] at hlines
  rcases hlines with hsame | hother
  · rw [hsame]
    exact h.visibleLines
  · exact .inr hother

theorem draw (w : World Vars) {f : Ssd1306 → Ssd1306}
    (hf : ∀ l < lcdCharLines, l ∉ ls → SameLine w.oled (f w.oled) l) : AppKeeps ls w (w.draw f) :=
  ⟨⟨rfl, rfl, rfl⟩, rfl, rfl, .inl rfl, rfl, rfl, rfl, hf⟩

theorem setRest (w : World Vars) {f : Vars → Vars} (hicon : (f w.rest).icon = w.rest.icon)
    (hboot : (f w.rest).bootloader = w.rest.bootloader) : AppKeeps ls w (w.setRest f) :=
  ⟨⟨rfl, rfl, rfl⟩, rfl, rfl, .inl rfl, rfl, hicon, hboot, fun l _ _ => .refl w.oled l⟩

theorem setRegs (w : World Vars) (f : RegFile → RegFile) : AppKeeps ls w (w.setRegs f) :=
  setRest w rfl rfl

theorem probe (w : World Vars) : AppKeeps ls w w.probe := setRest w rfl rfl

theorem enable (w : World Vars) (b : Bool) : AppKeeps ls w (enable w b) := by
  refine ⟨⟨rfl, rfl, rfl⟩, rfl, rfl, .inr ?_, rfl, rfl, rfl, fun l _ _ => .refl w.oled l⟩
  cases b with
  | false => exact .inl rfl
  | true => exact .inr rfl

theorem mono {ls' : List Nat} (h : AppKeeps ls w w') (hls : ls ⊆ ls') : AppKeeps ls' w w' :=
  { h with oled := fun l hl hnot => h.oled l hl fun hmem => hnot (hls hmem) }

/-- A string on a cleared line. -/
theorem write (w : World Vars) {line : Nat} (hline : line < lcdCharLines) (text : List UInt8) :
    AppKeeps [line] w (w.draw fun d => drawstring (clearline d line) line 0 text false) := by
  refine draw w fun l hl hls => ?_
  have hne : l ≠ line := fun heq => hls (heq ▸ List.mem_singleton_self line)
  exact (clearline_same hline hl hne).trans (drawstring_same hline hl hne)

end AppKeeps

/-! ### The applications -/

/-- The line that `rf_event_notify` prints on. -/
def rfEventLine (event : UInt8) : Nat :=
  if event = eventIsrFifoRxhi ∨ event.toUInt16 = isrSyncDet ∨ event.toUInt16 = isrValPrmDet then 7
  else 6

theorem toUInt16_ne_isrPktRcvd (event : UInt8) : event.toUInt16 ≠ isrPktRcvd := by
  intro h
  have hval : event.toUInt16.toNat = 512 := congrArg UInt16.toNat h
  have hlt := event.toNat_lt
  rw [UInt8.toNat_toUInt16] at hval
  omega

/-- `rf_event_notify` sets a pin or prints. -/
theorem rfEventNotify_keeps (event : UInt8) (data : UInt16) (w : World Vars) :
    AppKeeps [rfEventLine event] w (rfEventNotify event data w).2 := by
  have hled : ∀ b, AppKeeps [rfEventLine event] w (w.setRest fun v => { v with led := b }) :=
    fun b => .setRest w rfl rfl
  unfold rfEventNotify
  split
  · rename_i hstart
    have hline : rfEventLine event = 6 := by
      subst hstart
      decide
    rw [hline]
    split
    · exact (AppKeeps.probe w).trans (.write _ (by decide) _)
    · exact .probe w
  split
  · exact hled true
  split
  · exact .refl _ w
  split
  · rename_i hrxhi
    rw [rfEventLine, if_pos (.inl hrxhi)]
    exact .write w (by decide) _
  split
  · rename_i hsync
    rw [rfEventLine, if_pos (.inr (.inl hsync))]
    exact .write w (by decide) _
  split
  · rename_i hprm
    rw [rfEventLine, if_pos (.inr (.inr hprm))]
    exact .write w (by decide) _
  split
  · rename_i hpkt
    exact absurd hpkt (toUInt16_ne_isrPktRcvd event)
  · rename_i hrxhi hsync hprm _
    rw [rfEventLine, if_neg (by simp [hrxhi, hsync, hprm])] at hled ⊢
    exact (hled false).trans (.write _ (by decide) _)

theorem clearlines_same {lines : List Nat} {l : Nat} (hlines : ∀ line ∈ lines, line < lcdCharLines)
    (hl : l < lcdCharLines) (hls : l ∉ lines) (d : Ssd1306) :
    SameLine d (lines.foldl clearline d) l := by
  induction lines generalizing d with
  | nil => exact .refl d l
  | cons line lines ih =>
      obtain ⟨hne, hrest⟩ := List.ne_and_not_mem_of_not_mem_cons hls
      have hfirst : SameLine d (clearline d line) l :=
        clearline_same (hlines line List.mem_cons_self) hl hne
      exact hfirst.trans (ih (fun k hk => hlines k (List.mem_cons_of_mem line hk)) hrest _)

/-- The dump from `line` on leaves the lines above and behind it alone. -/
theorem dumpLoop_same {regs : RegFile} {l : Nat} (hl : l < lcdCharLines) :
    ∀ (n line : Nat) (start : UInt8) (d : Ssd1306), line + n ≤ lcdCharLines →
      (l < line ∨ line + n ≤ l) → SameLine d (dumpLoop regs n line start d) l
  | 0, _, _, d, _, _ => .refl d l
  | n + 1, line, start, d, hlines, hout => by
      have hfirst : SameLine d
          (drawstring d line 0 (dumpText start (dumpBuf regs start)) false) l :=
        drawstring_same (by omega) hl (by omega)
      exact hfirst.trans (dumpLoop_same hl n (line + 1) _ _ (by omega) (by omega))

/-- Lines 1 to 5 are the lines of the dump. -/
theorem dump_keeps (w : World Vars) : AppKeeps [1, 2, 3, 4, 5] w w.dump := by
  refine .draw w fun l hl hls => ?_
  have hout : l < 1 ∨ 1 + 5 ≤ l := by
    simp only [List.mem_cons, List.not_mem_nil, or_false] at hls
    omega
  exact (clearlines_same (by decide) hl hls _).trans (dumpLoop_same hl 5 1 _ _ (by decide) hout)

theorem rfDebugNotify_keeps (rv event : UInt8) (data : UInt16) (w : World Vars) :
    AppKeeps [1, 2, 3, 4, 5] w (rfDebugNotify rv event data w).2 := by
  have hscroll : ∀ f : Vars → Vars, (f w.rest).icon = w.rest.icon →
      (f w.rest).bootloader = w.rest.bootloader →
      AppKeeps [1, 2, 3, 4, 5] w (w.setRest f).dump :=
    fun f hicon hboot => (AppKeeps.setRest w hicon hboot).trans (dump_keeps _)
  unfold rfDebugNotify
  split
  · exact (((AppKeeps.enable w false).trans (.setRest _ rfl rfl)).trans (.probe _)).trans
      (dump_keeps _)
  split
  · exact .enable w true
  split
  · split
    · exact hscroll _ (by split <;> rfl) (by split <;> rfl)
    split
    · exact hscroll _ (by split <;> rfl) (by split <;> rfl)
    split
    · exact .refl _ w
    · exact .refl _ w
  · exact .refl _ w

/-- What the menu executes prints on line 6 and returns, but for the way into the bootloader. -/
theorem execute_keeps (f : ExecFn) (w : World Vars) :
    execute f w = jmpBootloader w ∨ AppKeeps [6] w (execute f w) := by
  have hcarrier : ∀ freq, AppKeeps [6] w (unmodCarrier freq w) :=
    fun freq => (AppKeeps.setRegs w _).trans (.write _ (by decide) _)
  unfold execute
  split
  · exact .inl rfl
  split
  · exact .inr (.setRest w rfl rfl)
  split
  · exact .inr (((AppKeeps.setRegs w _).trans (.write _ (by decide) _)).trans
      (.write _ (by decide) _))
  split
  · exact .inr (hcarrier 315)
  split
  · exact .inr (hcarrier 434)
  split
  · exact .inr (.setRegs w _)
  · exact .inr (.refl _ w)

/-! ### The menus -/

section Menus

variable {sys : UInt16}

/-- An element of a menu array is one of its entries or behind them. -/
theorem firmware_menus (menu : MenuPtr) (i : Nat) :
    (firmware sys).menus menu i = .dummy none ∨ (firmware sys).menus menu i ∈ menuEntries menu := by
  show (menuEntries menu).getD i (.dummy none) = _ ∨ (menuEntries menu).getD i (.dummy none) ∈ _
  by_cases hi : i < (menuEntries menu).length
  · rw [List.getD_eq_getElem _ _ hi]
    exact .inr (List.getElem_mem hi)
  · exact .inl (List.getD_eq_default _ _ (Nat.le_of_not_lt hi))

/-- The entries that lead anywhere are those of the two applications. -/
theorem firmware_entry (menu : MenuPtr) (i : Nat) :
    ((firmware sys).menus menu i).next? = none ∧ ((firmware sys).menus menu i).evtHandler? = none ∨
      ∃ text, (firmware sys).menus menu i = .evtHdl text mRfRoot (some rfEventNotifyCb) ∨
        (firmware sys).menus menu i = .evtHdl text mRfDebug (some rfDebugNotifyCb) := by
  have hentries : ∀ e ∈ menuEntries menu, e.next? = none ∧ e.evtHandler? = none ∨
      ∃ text, e = .evtHdl text mRfRoot (some rfEventNotifyCb) ∨
        e = .evtHdl text mRfDebug (some rfDebugNotifyCb) := by
    unfold menuEntries
    split
    · simp [MenuEntry.next?, MenuEntry.evtHandler?]
    split
    · simp [MenuEntry.next?, MenuEntry.evtHandler?]
    · simp
  rcases firmware_menus menu i with hlast | hmem
  · rw [hlast]
    exact .inl ⟨rfl, rfl⟩
  · exact hentries _ hmem

/-- They lead to the menus of these applications. -/
theorem firmware_next {menu next : MenuPtr} {i : Nat}
    (h : ((firmware sys).menus menu i).next? = some next) : next = mRfRoot ∨ next = mRfDebug := by
  rcases firmware_entry menu i with ⟨hnone, -⟩ | ⟨text, heq | heq⟩
  · rw [hnone] at h
    cases h
  · rw [heq] at h
    exact .inl (Option.some.inj h).symm
  · rw [heq] at h
    exact .inr (Option.some.inj h).symm

/-- The menus of the applications lead nowhere. -/
theorem firmware_leaf {menu : MenuPtr} (hmenu : menu = mRfRoot ∨ menu = mRfDebug) (i : Nat) :
    ((firmware sys).menus menu i).next? = none := by
  have hentries : ∀ e ∈ menuEntries menu, e.next? = none := by
    rcases hmenu with rfl | rfl
    · simp [menuEntries, mRfRoot, mRoot, MenuEntry.next?]
    · simp [menuEntries, mRfDebug, mRfRoot, mRoot]
  rcases firmware_menus menu i with hlast | hmem
  · rw [hlast]
    rfl
  · exact hentries _ hmem

theorem firmware_isMenu (menu : MenuPtr) :
    IsMenu (firmware sys).menus menu (menuEntries menu).length := by
  have htexts : ∀ e ∈ menuEntries menu, e.text ≠ none := by
    unfold menuEntries
    split
    · simp [MenuEntry.text]
    split
    · simp [MenuEntry.text]
    · simp
  refine ⟨fun i hi => ?_, List.getD_eq_default _ _ (Nat.le_refl _)⟩
  show ((menuEntries menu).getD i (.dummy none)).text ≠ none
  rw [List.getD_eq_getElem _ _ hi]
  exact htexts _ (List.getElem_mem hi)

theorem menuEntries_length_le (menu : MenuPtr) : (menuEntries menu).length ≤ 4 := by
  unfold menuEntries
  split
  · exact Nat.le_refl 4
  split
  · exact Nat.le_refl 4
  · exact Nat.zero_le 4

theorem firmware_tree : MenuTree (firmware sys).menus 4 HasCallback maxMenuDepth mRoot := by
  have hcallback : ∀ menu i, HasCallback ((firmware sys).menus menu i) := by
    intro menu i
    rcases firmware_entry menu i with ⟨-, hnone⟩ | ⟨text, heq | heq⟩
    · rw [HasCallback, hnone]
      exact fun h => by cases h
    · rw [HasCallback, heq]
      exact fun h => by cases h
    · rw [HasCallback, heq]
      exact fun h => by cases h
  have hleaf : ∀ levels menu, menu = mRfRoot ∨ menu = mRfDebug →
      MenuTree (firmware sys).menus 4 HasCallback (levels + 1) menu := by
    intro levels menu hmenu
    refine ⟨_, menuEntries_length_le menu, firmware_isMenu menu, fun i _ => ⟨hcallback menu i, ?_⟩⟩
    intro next hnext
    rw [firmware_leaf hmenu] at hnext
    cases hnext
  refine ⟨_, menuEntries_length_le mRoot, firmware_isMenu mRoot, fun i _ => ⟨hcallback mRoot i, ?_⟩⟩
  intro next hnext
  exact hleaf 8 next (firmware_next hnext)

end Menus

/-! ### Callbacks -/

section Invariant

variable {sys : UInt16} {tbl : CmdTable} {o : PostInc} {rv : UInt8} {e : EventT}
  {w w' : World Vars}

/-- A parse that returns has changed the serial object only. -/
theorem parseLine_eq {data : UInt16} (h : parseLine tbl o data w = some w') :
    ∃ ser, w.rest.ser.parseCmd tbl o data.toNat = some ser ∧
      w' = w.setRest fun v => { v with ser := ser } := by
  obtain ⟨ser, hparse, rfl⟩ := Option.map_eq_some_iff.mp h
  exact ⟨ser, hparse, rfl⟩

/-- But for key presses, the base handler does what an application may do, and consumes the
    event. -/
theorem uiEventNotify_keeps {menuKeyHandler : UInt8 → World Vars → Option (World Vars)}
    {event : UInt8} {data : UInt16} {r : UInt8 × World Vars} (hkey : event ≠ eventKeypress)
    (h : uiEventNotify tbl o menuKeyHandler event data w = some r) :
    r.1 = 1 ∧ AppKeeps [6] w r.2 := by
  rw [uiEventNotify, if_neg hkey] at h
  split at h
  · cases h
    exact ⟨rfl, .refl _ w⟩
  split at h
  · cases h
    exact ⟨rfl, .write w (by decide) _⟩
  split at h
  · cases h
    exact ⟨rfl, .write w (by decide) _⟩
  split at h
  · cases h
    have hkeeps : AppKeeps [6] w (w.setRest fun v =>
      { v with battIcon := updateVbatt data.toUInt8 }) := .setRest w rfl rfl
    exact ⟨rfl, hkeeps⟩
  split at h
  · obtain ⟨w', hparse, rfl⟩ := Option.map_eq_some_iff.mp h
    obtain ⟨ser, -, rfl⟩ := parseLine_eq hparse
    have hkeeps : AppKeeps [6] w (w.setRest fun v => { v with ser := ser }) := .setRest w rfl rfl
    exact ⟨rfl, hkeeps⟩
  · cases h
    exact ⟨rfl, .refl _ w⟩

/-- But for key presses and lines it returns. -/
theorem uiEventNotify_total {event : UInt8} (hkey : event ≠ eventKeypress)
    (hline : event ≠ eventSerialRecv) (tbl : CmdTable) (o : PostInc)
    (menuKeyHandler : UInt8 → World Vars → Option (World Vars)) (data : UInt16) (w : World Vars) :
    ∃ w', uiEventNotify tbl o menuKeyHandler event data w = some (1, w') := by
  rw [uiEventNotify, if_neg hkey, if_neg hline]
  split
  · exact ⟨_, rfl⟩
  split
  · exact ⟨_, rfl⟩
  split
  · exact ⟨_, rfl⟩
  split <;> exact ⟨_, rfl⟩

/-- Lines 1 to 6 are for everybody; line 7 is for the radio events of `rf_event_notify`. -/
theorem firmware_call_keeps (cb : EventNotifyCb) (event : UInt8) (data : UInt16) (w : World Vars) :
    AppKeeps [1, 2, 3, 4, 5, 6, rfEventLine event] w ((firmware sys).call cb event data w).2 := by
  show AppKeeps _ w
    ((callback cmdTbl .unchanged (fun _ w => some w) 0 cb event data w).getD (0, w)).2
  unfold callback
  split
  · by_cases hkey : event = eventKeypress
    · rw [uiEventNotify, if_pos hkey]
      exact .refl _ w
    · cases hcall : uiEventNotify cmdTbl .unchanged (fun _ w => some w) event data w with
      | none => exact .refl _ w
      | some r => exact (uiEventNotify_keeps hkey hcall).2.mono (by simp)
  split
  · exact (rfEventNotify_keeps event data w).mono (by simp)
  split
  · exact (rfDebugNotify_keeps 0 event data w).mono (by simp)
  · exact .refl _ w

theorem firmware_keepsMenu : KeepsMenu (firmware sys) := by
  refine ⟨fun cb event data w => (firmware_call_keeps cb event data w).stack, fun f w => ?_⟩
  rcases execute_keeps f w with heq | hkeeps
  · show SameStack w (execute f w)
    rw [heq]
    exact ⟨rfl, rfl, rfl⟩
  · exact hkeeps.stack

theorem firmware_keepsHandlers : KeepsHandlers (firmware sys) := by
  refine ⟨fun cb event data w => (firmware_call_keeps cb event data w).handlers, fun f w => ?_⟩
  rcases execute_keeps f w with heq | hkeeps
  · show (execute f w).handlers = w.handlers
    rw [heq]
    rfl
  · exact hkeeps.handlers

/-! ### The invariant -/

/-- Menu levels and registered handlers are paired above the base handler. -/
abbrev UiInv (sys : UInt16) (w : World Vars) : Prop :=
  HandlerInv (firmware sys) 4 uiEventNotifyCb w

/-- At most one application runs, since their menus lead nowhere. -/
theorem UiInv.apps (h : UiInv sys w) :
    entered (firmware sys) w = [] ∨ entered (firmware sys) w = [rfEventNotifyCb] ∨
      entered (firmware sys) w = [rfDebugNotifyCb] := by
  rw [h.entered_eq]
  match hidx : w.menu.stackIdx with
  | 0 => exact .inl rfl
  | 1 =>
      have hlink := h.linked 0 (by omega)
      show [(w.menu.stack 0).level].filterMap (enteredCb (firmware sys)) = [] ∨ _
      rcases firmware_entry (w.menu.stack 0).menu (w.menu.stack 0).selected with
        ⟨hnone, -⟩ | ⟨text, heq | heq⟩
      · rw [hnone] at hlink
        cases hlink
      · right
        left
        simp [below, enteredCb, MenuSave.level, heq, MenuEntry.evtHandler?]
      · right
        right
        simp [below, enteredCb, MenuSave.level, heq, MenuEntry.evtHandler?]
  | idx + 2 =>
      -- the menu of an application would lead on
      have hlink := h.linked 0 (by omega)
      have hlink' := h.linked 1 (by omega)
      rw [firmware_leaf (firmware_next hlink)] at hlink'
      cases hlink'

/-- So there is a node for every handler that is added. -/
theorem UiInv.handlerOk (h : UiInv sys w) (k : UInt8) : HandlerOk (firmware sys) w k := by
  intro _ _
  rcases h.apps with heq | heq | heq <;>
  · rw [heq]
    decide

theorem UiInv.keeps {ls : List Nat} (h : UiInv sys w) (hkeeps : AppKeeps ls w w') : UiInv sys w' :=
  (h.same hkeeps.stack hkeeps.handlers).1

theorem UiInv.keyHandler (h : UiInv sys w) (k : UInt8) :
    ∃ w', uiKeyHandler sys k w = some w' ∧ UiInv sys w' := by
  obtain ⟨w', offers, hkey, -⟩ := keyHandler_total firmware_keepsMenu firmware_keepsHandlers
    h.toMenuInv ⟨_, h.registered⟩ (by decide) (Nat.le_refl maxHandlers) k
  refine ⟨w', by rw [uiKeyHandler, hkey]; rfl, ?_⟩
  exact (keyHandler_handlers firmware_keepsMenu firmware_keepsHandlers h (h.handlerOk k) hkey).1

/-! ### A round of the dispatcher -/

/-- What a round calls a handler for: whether it consumes the event, and the world it leaves. -/
def handlerCall (sys : UInt16) (tbl : CmdTable) (o : PostInc) (rv : UInt8) (e : EventT)
    (cb : EventNotifyCb) (w : World Vars) : Option (Bool × World Vars) :=
  (callback tbl o (uiKeyHandler sys) rv cb e.event e.data w).map fun r => (decide (r.1 ≠ 0), r.2)

/-- The loop offers the event along the list, as long as only a handler that consumes it changes the
    list. -/
theorem dispatchLoop_eq {call : EventNotifyCb → World Vars → Option (UInt8 × World Vars)}
    (hquiet : ∀ cb w w', call cb w = some (0, w') → w'.handlers = w.handlers) {h : HandlerList}
    {p : Option NodePtr} {ns : List NodePtr} (hchain : Chain (fun n => (h.pool n).next) p ns) :
    ∀ {cbs : List EventNotifyCb} {fuel : Nat} {w : World Vars}, w.handlers = h →
      ns.map (fun n => (h.pool n).cb) = cbs.map some → ns.length ≤ fuel →
      dispatchLoop call e fuel p w =
        (offerTo (fun cb w => (call cb w).map fun r => (decide (r.1 ≠ 0), r.2)) cbs w).map
          fun r => (r.1, r.2.map fun cb => ⟨cb, e.event, e.data⟩) := by
  induction hchain with
  | nil =>
      intro cbs fuel w hw hkeys hfuel
      obtain rfl : cbs = [] := by simpa using hkeys.symm
      rw [dispatchLoop]
      rfl
  | @cons n ns rest ih =>
      intro cbs fuel w hw hkeys hfuel
      cases cbs with
      | nil => cases hkeys
      | cons cb cbs =>
          cases fuel with
          | zero => cases hfuel
          | succ fuel =>
              have hcb : (h.pool n).cb = some cb := (List.cons.inj hkeys).1
              have hkeys' := (List.cons.inj hkeys).2
              rw [dispatchLoop, hw, hcb]
              simp only
              cases hcall : call cb w with
              | none => simp [offerTo, hcall]
              | some r =>
                  obtain ⟨rv, w₁⟩ := r
                  by_cases hrv : rv = 0
                  · subst hrv
                    have hw₁ : w₁.handlers = h := (hquiet cb w w₁ hcall).trans hw
                    have hrest := ih hw₁ hkeys' (Nat.le_of_succ_le_succ hfuel)
                    have hpass : (call cb w).map (fun r => (decide (r.1 ≠ 0), r.2)) =
                        some (false, w₁) := by
                      rw [hcall]
                      rfl
                    simp only [ne_eq, not_true_eq_false, if_false, hw₁]
                    rw [hrest, offerTo_passed hpass]
                    cases offerTo _ cbs w₁ <;> rfl
                  · have hcons : (call cb w).map (fun r => (decide (r.1 ≠ 0), r.2)) =
                        some (true, w₁) := by
                      rw [hcall, Option.map_some, decide_eq_true hrv]
                    rw [offerTo_consumed hcons]
                    simp [hrv]

/-- What the handlers do: the base handler gives key presses to the menu, and consumes everything.
    Each prints on lines of its own. -/
theorem callback_cases {cb : EventNotifyCb} {r : UInt8 × World Vars}
    (h : callback tbl o (uiKeyHandler sys) rv cb e.event e.data w = some r) :
    (cb = uiEventNotifyCb ∧ r.1 = 1 ∧
      (uiKeyHandler sys e.data.toUInt8 w = some r.2 ∨ AppKeeps [6] w r.2)) ∨
    (cb = rfEventNotifyCb ∧ AppKeeps [rfEventLine e.event] w r.2) ∨
    (cb = rfDebugNotifyCb ∧ AppKeeps [1, 2, 3, 4, 5] w r.2) := by
  unfold callback at h
  split at h
  · rename_i hui
    refine .inl ⟨hui, ?_⟩
    by_cases hkey : e.event = eventKeypress
    · rw [uiEventNotify, if_pos hkey] at h
      obtain ⟨w', hmenu, rfl⟩ := Option.map_eq_some_iff.mp h
      exact ⟨rfl, .inl hmenu⟩
    · obtain ⟨hone, hkeeps⟩ := uiEventNotify_keeps hkey h
      exact ⟨hone, .inr hkeeps⟩
  split at h
  · rename_i hrf
    cases h
    exact .inr (.inl ⟨hrf, rfEventNotify_keeps e.event e.data w⟩)
  split at h
  · rename_i hdebug
    cases h
    exact .inr (.inr ⟨hdebug, rfDebugNotify_keeps rv e.event e.data w⟩)
  · cases h

/-- A handler that passes the event on has left the list alone. -/
theorem callback_quiet {cb : EventNotifyCb}
    (h : callback tbl o (uiKeyHandler sys) rv cb e.event e.data w = some (0, w')) :
    w'.handlers = w.handlers := by
  rcases callback_cases h with ⟨-, hone, -⟩ | ⟨-, hkeeps⟩ | ⟨-, hkeeps⟩
  · -- the base handler consumes everything
    have hzero : (0 : UInt8) = 1 := hone
    exact absurd hzero (by decide)
  · exact hkeeps.handlers
  · exact hkeeps.handlers

/-- A round offers its event to the application, if one is running, and then to the base handler. -/
theorem UiInv.dispatchEvent_eq (h : UiInv sys w) (tbl : CmdTable) (o : PostInc) (rv : UInt8)
    (e : EventT) :
    dispatchEvent sys tbl o rv e w =
      (offerTo (handlerCall sys tbl o rv e) (entered (firmware sys) w ++ [uiEventNotifyCb]) w).map
        fun r => (r.1, r.2.map fun cb => ⟨cb, e.event, e.data⟩) := by
  obtain ⟨ns, hstack⟩ := h.registered
  have hlen : ns.length ≤ maxHandlers := by simpa using hstack.nodup.length_le_card
  exact dispatchLoop_eq (fun cb w w' => callback_quiet) hstack.chain rfl hstack.keys hlen

/-- Every handler keeps the invariant. -/
theorem UiInv.handlerCall_keeps (h : UiInv sys w) {cb : EventNotifyCb} {r : Bool × World Vars}
    (hcall : handlerCall sys tbl o rv e cb w = some r) : UiInv sys r.2 := by
  obtain ⟨⟨rv', w'⟩, hcb, rfl⟩ := Option.map_eq_some_iff.mp hcall
  show UiInv sys w'
  rcases callback_cases hcb with ⟨-, -, hmenu | hkeeps⟩ | ⟨-, hkeeps⟩ | ⟨-, hkeeps⟩
  · obtain ⟨w'', heq, hinv⟩ := h.keyHandler e.data.toUInt8
    obtain rfl : w' = w'' := Option.some.inj (hmenu.symm.trans heq)
    exact hinv
  · exact h.keeps hkeeps
  · exact h.keeps hkeeps
  · exact h.keeps hkeeps

/-- Every handler that can be registered returns, unless it may have to parse a line. -/
theorem UiInv.handlerCall_total (h : UiInv sys w) (tbl : CmdTable) (o : PostInc) (rv : UInt8)
    (hline : e.event ≠ eventSerialRecv) {cb : EventNotifyCb}
    (hcb : cb ∈ [uiEventNotifyCb, rfEventNotifyCb, rfDebugNotifyCb]) :
    ∃ r, handlerCall sys tbl o rv e cb w = some r := by
  have hcall : ∃ r, callback tbl o (uiKeyHandler sys) rv cb e.event e.data w = some r := by
    simp only [List.mem_cons, List.not_mem_nil, or_false] at hcb
    rcases hcb with rfl | rfl | rfl
    · show ∃ r, uiEventNotify tbl o (uiKeyHandler sys) e.event e.data w = some r
      by_cases hkey : e.event = eventKeypress
      · obtain ⟨w', heq, -⟩ := h.keyHandler e.data.toUInt8
        exact ⟨(1, w'), by rw [uiEventNotify, if_pos hkey, heq]; rfl⟩
      · obtain ⟨w', heq⟩ := uiEventNotify_total hkey hline tbl o (uiKeyHandler sys) e.data w
        exact ⟨(1, w'), heq⟩
    · exact ⟨_, rfl⟩
    · exact ⟨_, rfl⟩
  obtain ⟨r, heq⟩ := hcall
  exact ⟨_, by rw [handlerCall, heq]; rfl⟩

theorem UiInv.mem_handlers (h : UiInv sys w) {cb : EventNotifyCb}
    (hcb : cb ∈ entered (firmware sys) w ++ [uiEventNotifyCb]) :
    cb ∈ [uiEventNotifyCb, rfEventNotifyCb, rfDebugNotifyCb] := by
  rcases h.apps with heq | heq | heq <;>
  · rw [heq] at hcb
    revert cb
    decide

/-- After every round that goes to its end, menu levels and handlers are still paired. -/
theorem UiInv.dispatch_keeps (h : UiInv sys w) {offers : List Offer}
    (hround : dispatchEvent sys tbl o rv e w = some (w', offers)) : UiInv sys w' := by
  rw [h.dispatchEvent_eq] at hround
  obtain ⟨r, hoffer, heq⟩ := Option.map_eq_some_iff.mp hround
  obtain rfl : r.1 = w' := congrArg Prod.fst heq
  exact offerTo_keeps (fun cb _ w r hw hcall => hw.handlerCall_keeps hcall) h hoffer

/-- Every round goes to its end, unless it is about a line. -/
theorem UiInv.dispatch (h : UiInv sys w) (tbl : CmdTable) (o : PostInc) (rv : UInt8)
    (hline : e.event ≠ eventSerialRecv) :
    ∃ w' offers, dispatchEvent sys tbl o rv e w = some (w', offers) := by
  have hcall : ∀ cb ∈ entered (firmware sys) w ++ [uiEventNotifyCb], ∀ w, UiInv sys w →
      ∃ r, handlerCall sys tbl o rv e cb w = some r ∧ UiInv sys r.2 := by
    intro cb hcb w hw
    obtain ⟨r, heq⟩ := hw.handlerCall_total tbl o rv hline (h.mem_handlers hcb)
    exact ⟨r, heq, hw.handlerCall_keeps heq⟩
  obtain ⟨r, heq⟩ := Option.isSome_iff_exists.mp (offerTo_total hcall h)
  exact ⟨_, _, by rw [h.dispatchEvent_eq, heq]; rfl⟩

/-- The callback at the head of the handler list. -/
def headCb (h : HandlerList) : Option EventNotifyCb := h.head.bind fun n => (h.pool n).cb

theorem Registered.headCb {h : HandlerList} {cb : EventNotifyCb} {cbs : List EventNotifyCb}
    (hr : Registered h (cb :: cbs)) : headCb h = some cb := by
  obtain ⟨ns, hstack⟩ := hr
  obtain ⟨n, hhead, hcb⟩ := hstack.head_key
  rw [RfPirate.headCb, hhead]
  exact hcb

/-- The handler at the head tells which application runs. -/
theorem UiInv.entered_of_headCb (h : UiInv sys w) {cb : EventNotifyCb}
    (hne : cb ≠ uiEventNotifyCb) (hhead : headCb w.handlers = some cb) :
    entered (firmware sys) w = [cb] := by
  have hreg := h.registered
  rcases h.apps with heq | heq | heq
  · rw [heq] at hreg
    exact absurd (Option.some.inj (hhead.symm.trans hreg.headCb)) hne
  · rw [heq] at hreg ⊢
    rw [Option.some.inj (hhead.symm.trans hreg.headCb)]
  · rw [heq] at hreg ⊢
    rw [Option.some.inj (hhead.symm.trans hreg.headCb)]

/-- An application is in the list only if it is at the head. -/
theorem UiInv.headCb_of_mem (h : UiInv sys w) {cb : EventNotifyCb} (hne : cb ≠ uiEventNotifyCb)
    (hcb : cb ∈ entered (firmware sys) w ++ [uiEventNotifyCb]) : headCb w.handlers = some cb := by
  have hreg := h.registered
  rw [List.mem_append, List.mem_singleton, or_iff_left hne] at hcb
  rcases h.apps with heq | heq | heq
  · rw [heq] at hcb
    cases hcb
  · rw [heq, List.mem_singleton] at hcb
    rw [heq, ← hcb] at hreg
    exact hreg.headCb
  · rw [heq, List.mem_singleton] at hcb
    rw [heq, ← hcb] at hreg
    exact hreg.headCb

/-- An application that consumes the event. -/
theorem UiInv.dispatch_consumed (h : UiInv sys w) {cb : EventNotifyCb}
    (happ : entered (firmware sys) w = [cb])
    (hcall : handlerCall sys tbl o rv e cb w = some (true, w')) :
    dispatchEvent sys tbl o rv e w = some (w', [⟨cb, e.event, e.data⟩]) := by
  rw [h.dispatchEvent_eq, happ, List.singleton_append, offerTo_consumed hcall]
  rfl

/-- One that passes it on to the base handler. -/
theorem UiInv.dispatch_passed (h : UiInv sys w) {cb : EventNotifyCb} {w'' : World Vars}
    (happ : entered (firmware sys) w = [cb])
    (hcall : handlerCall sys tbl o rv e cb w = some (false, w'))
    (hbase : uiEventNotify tbl o (uiKeyHandler sys) e.event e.data w' = some (1, w'')) :
    dispatchEvent sys tbl o rv e w =
      some (w'', [⟨cb, e.event, e.data⟩, ⟨uiEventNotifyCb, e.event, e.data⟩]) := by
  have hbase' : handlerCall sys tbl o rv e uiEventNotifyCb w' = some (true, w'') := by
    show (uiEventNotify tbl o (uiKeyHandler sys) e.event e.data w').map _ = _
    rw [hbase]
    rfl
  rw [h.dispatchEvent_eq, happ, List.singleton_append, offerTo_passed hcall,
    offerTo_consumed hbase']
  rfl

/-! ### Runs -/

theorem uiStep_dispatch {s : UiState} {offers : List Offer} (hpending : s.pending = some e)
    (hround : dispatchEvent sys tbl o rv e s.world = some (w', offers))
    (hrunning : w'.rest.bootloader = false) :
    uiStep sys tbl o s (.dispatch rv) =
      some ({ queue := s.queue.advance, world := w' }, offers) := by
  simp [uiStep, hpending, hround, hrunning]

theorem uiStep_dispatch_inv {s s' : UiState} {offers : List Offer} (hpending : s.pending = some e)
    (h : uiStep sys tbl o s (.dispatch rv) = some (s', offers)) :
    ∃ w', dispatchEvent sys tbl o rv e s.world = some (w', offers) ∧ w'.rest.bootloader = false ∧
      s' = { queue := s.queue.advance, world := w' } := by
  simp only [uiStep, hpending] at h
  split at h
  · cases h
  · rename_i w' offers' hround
    by_cases hboot : w'.rest.bootloader = true
    · rw [if_pos hboot] at h
      cases h
    · rw [if_neg hboot] at h
      cases h
      exact ⟨w', hround, by simpa using hboot, rfl⟩

/-- A step is a round that handles an event, or it changes no more than an application may and
    nothing on the display. -/
theorem uiStep_cases {s s' : UiState} {act : UiAct} {offers : List Offer}
    (h : uiStep sys tbl o s act = some (s', offers)) :
    AppKeeps [] s.world s'.world ∨
      ∃ rv e w', act = .dispatch rv ∧ s.pending = some e ∧
        dispatchEvent sys tbl o rv e s.world = some (w', offers) ∧ w'.rest.bootloader = false ∧
        s' = { queue := s.queue.advance, world := w' } := by
  cases act with
  | post event data =>
      simp only [uiStep] at h
      split at h
      · cases h
      · cases h
        exact .inl (.refl [] s.world)
  | serial ser =>
      cases h
      have hkeeps : AppKeeps [] s.world (s.world.setRest fun v => { v with ser := ser }) :=
        .setRest s.world rfl rfl
      exact .inl hkeeps
  | radio regs =>
      cases h
      have hkeeps : AppKeeps [] s.world (s.world.setRegs fun _ => regs) := .setRegs s.world _
      exact .inl hkeeps
  | dispatch rv =>
      cases hpending : s.pending with
      | none =>
          simp only [uiStep, hpending] at h
          cases h
          exact .inl (.refl [] s.world)
      | some e =>
          obtain ⟨w', hround, hrunning, heq⟩ := uiStep_dispatch_inv hpending h
          exact .inr ⟨rv, e, w', rfl, rfl, hround, hrunning, heq⟩

/-- In every state that a run reaches, the invariant holds and the firmware has control. -/
structure UiStateInv (sys : UInt16) (s : UiState) : Prop where
  inv : UiInv sys s.world
  running : s.world.rest.bootloader = false

theorem uiStep_keeps {s s' : UiState} {act : UiAct} {offers : List Offer} (h : UiStateInv sys s)
    (hstep : uiStep sys tbl o s act = some (s', offers)) : UiStateInv sys s' := by
  rcases uiStep_cases hstep with hkeeps | ⟨rv, e, w', -, -, hround, hrunning, rfl⟩
  · exact ⟨h.inv.keeps hkeeps, hkeeps.bootloader.trans h.running⟩
  · exact ⟨h.inv.dispatch_keeps hround, hrunning⟩

/-- The world in which `ui_setup` draws the menu. -/
def uiUndrawn (regs : RegFile) (ser : UsbSerial) : World Vars :=
  let w := { uiZero regs ser with
    handlers := evtHandlerAddhandler .zero (some uiEventNotifyCb) }
  let w := w.setRest fun v => { v with led := true, icon := registericon v.icon 0 (some iconCbFn) }
  w.draw fun d => drawicon d 0 7 19 2

theorem uiSetup_eq (sys : UInt16) (regs : RegFile) (ser : UsbSerial) :
    uiSetup sys (uiZero regs ser) = drawMenu (firmware sys) (uiUndrawn regs ser) := rfl

/-- `ui_setup` returns, with the base handler registered and the root menu shown. -/
theorem uiSetup_inv (sys : UInt16) (regs : RegFile) (ser : UsbSerial) :
    ∃ w, uiSetup sys (uiZero regs ser) = some w ∧ UiStateInv sys ⟨.zero, w⟩ := by
  have hmenu : (uiUndrawn regs ser).menu = menuCtor .zero mRoot 1 5 := rfl
  obtain ⟨w, hdraw⟩ := Option.isSome_iff_exists.mp
    ((menuInv_ctor (P := firmware sys) firmware_tree hmenu).1.draw_total (by decide))
  have hbase : Registered w.handlers [uiEventNotifyCb] := by
    rw [(drawMenu_keeps hdraw).handlers]
    exact addhandler_registered registered_zero uiEventNotifyCb
  refine ⟨w, hdraw, handlerInv_atRoot firmware_tree ⟨_, 1, 5, hmenu, .inr hdraw⟩ hbase, ?_⟩
  obtain ⟨cnt, oled, buf, -, rfl⟩ := drawMenu_eq hdraw
  rfl

end Invariant

end RfPirate
