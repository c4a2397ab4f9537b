/-
Module: RfPirate.Proofs.FirmwareScreen
Layer: Proofs
Purpose: What the user sees. The keys that reach the menu lead along a path in the menus of the
  firmware, and in every run the display shows the end of it: the name of the menu, its entries one
  a line, and the one under the cursor inverted, except for the lines that the RF Debug application
  has taken over.
Main exports: menuKeys, uiPath, ScreenLine, screenLine, ShowsPath, drawMenu_screen, ScreenInv,
  firmware_screen
-/
import RfPirate.Proofs.FirmwareEvents
import RfPirate.Proofs.MenuScreen
import RfPirate.Proofs.RfDebug

namespace RfPirate

open Lib Lib.CString Lib.Machine

/-! ### The reference screen -/

/-- The key that an event brings to the menu. -/
def menuKey? (e : EventT) : Option UInt8 :=
  if e.event = eventKeypress then some e.data.toUInt8 else none

/-- The keys that the base handler gives to the menu. -/
def menuKeys (obs : List FirmwareObs) : List UInt8 := (handled obs).filterMap menuKey?

/-- The entry at a level. -/
def uiEntry (l : Level) : MenuEntry := (menuEntries l.1).getD l.2 (.dummy none)

/-- How many entries the current menu of a path has. -/
def uiCount : List Level → Nat
  | [] => 0
  | l :: _ => (menuEntries l.1).length

/-- A key on a path. No entry of the firmware is a dropdown. -/
def uiNavigate (path : List Level) (k : UInt8) : List Level :=
  navigate (fun menu i => uiEntry (menu, i)) (uiCount path) false k path

/-- Where the keys lead from the root menu. -/
def uiPath (keys : List UInt8) : List Level := keys.foldl uiNavigate [(mRoot, 0)]

/-- The text of an entry. -/
def MenuEntry.label (e : MenuEntry) : List UInt8 := (e.text.map CStr.bytes).getD []

/-- A line as text, and how many of its first cells are inverted. -/
structure ScreenLine where
  text : List UInt8
  mark : Nat
deriving DecidableEq, Repr

/-- The first line: the name of the root, or the entry that was entered. -/
def headerLine : List Level → ScreenLine
  | _ :: parent :: _ => ⟨[91] ++ (uiEntry parent).label ++ [93], 0⟩
  | _ => ⟨[91] ++ rootHeader ++ [93], 0⟩

/-- The line of entry `i`. -/
def bodyScreenLine : List Level → Nat → ScreenLine
  | [], _ => ⟨[], 0⟩
  | (menu, c) :: _, i =>
      if i < (menuEntries menu).length then
        let label := (uiEntry (menu, i)).label
        ⟨(if i = c then [32] else []) ++ label ++
            (if (uiEntry (menu, i)).next?.isSome then dirIcon else []),
          if i = c then label.length + 1 else 0⟩
      else ⟨[], 0⟩

/-- The lines of the display down to the last one of the menu. -/
def screenLine (path : List Level) : Nat → ScreenLine
  | 0 => headerLine path
  | i + 1 => bodyScreenLine path i

/-- The current menu is that of the RF Debug application. -/
def Debugs (path : List Level) : Prop := path.head?.map Prod.fst = some mRfDebug
deriving Decidable

/-- The display shows the end of the path. The lines of the menu belong to RF Debug while it
    runs. -/
def ShowsPath (path : List Level) (d : Ssd1306) : Prop :=
  ∀ l ≤ 5, (l = 0 ∨ ¬ Debugs path) → ShowsLine d l (screenLine path l).text (screenLine path l).mark

/-! ### The header -/

section Header

variable {σ : Type*} {P : Program σ} {w w' : World σ} {top selected l : Nat}

theorem drawHeader_shows (d : Ssd1306) {text : List UInt8} (hlen : text.length < 255) :
    ShowsLine (drawHeader d text) 0 ([91] ++ text ++ [93]) 0 := by
  have hline : 0 < lcdCharLines := by decide
  have hopen := (clearline_shows d hline).append hline [91]
  have htext := hopen.append hline text
  have hclose := htext.append hline [93]
  have hend : ([] ++ [91] ++ text : List UInt8).length = (text.length + 1) % 256 := by
    rw [Nat.mod_eq_of_lt (by omega)]
    simp
  rw [hend] at hclose
  exact hclose

/-- The loop leaves the lines above it alone. -/
theorem drawEntries_above :
    ∀ (n i : Nat) {d d' : Ssd1306} {buf buf' : Nat → UInt8},
      drawEntries P w top selected n i d buf = some (d', buf') →
      l < w.menu.lineStart + i → w.menu.lineStart + i + n ≤ lcdCharLines → SameLine d d' l
  | 0, i, d, d', buf, buf', h, _, _ => by
      cases h
      exact .refl d l
  | n + 1, i, d, d', buf, buf', h, hl, hlast => by
      rw [drawEntries] at h
      split at h
      · cases h
      · rename_i d₁ buf₁ hentry
        have hmod : (i + w.menu.lineStart) % 256 = i + w.menu.lineStart :=
          Nat.mod_eq_of_lt (by simp only [lcdCharLines] at hlast; omega)
        have hfirst : SameLine d d₁ l :=
          drawEntry_same hentry (by omega) (by rw [hmod]; omega) (by rw [hmod]; omega)
        exact hfirst.trans (drawEntries_above n (i + 1) h (by omega) (by omega))

/-- The arrows are drawn on the lines of the menu. -/
theorem drawArrows_above {d : Ssd1306} (hfirst : l < w.menu.lineStart) (hlast : l < w.menu.lineEnd)
    (itemsAbove itemsBelow : Bool) : SameLine d (drawArrows w itemsAbove itemsBelow d) l := by
  refine ⟨fun y hy => ?_, fun y _ => ?_⟩
  · rw [drawArrows, downIcon, upIcon, drawArrow_cell _ hy, drawArrow_cell _ hy,
      if_neg (by omega), if_neg (by omega)]
  · rw [drawArrows, downIcon, upIcon, drawArrow_invBit, drawArrow_invBit]

/-- `DrawMenu` shows the header, whether the menu is enabled or not. -/
theorem drawMenu_header (hdraw : drawMenu P w = some w') (hcur : w.menu.cur = w.menu.stackIdx)
    {text : List UInt8} (htext : header P w = some text) (hlen : text.length < 255)
    (hfirst : 1 ≤ w.menu.lineStart) (hlast : 1 ≤ w.menu.lineEnd)
    (hlines : w.menu.lineStart + w.menu.visibleLines ≤ lcdCharLines) :
    ShowsLine w'.oled 0 ([91] ++ text ++ [93]) 0 := by
  unfold drawMenu at hdraw
  split at hdraw
  · cases hdraw
  · rename_i cnt _
    simp only at hdraw
    split at hdraw
    · cases hdraw
    · rename_i oled buf hvisible
      cases hdraw
      rw [drawVisible_eq ((header_setCur hcur _).trans htext)] at hvisible
      obtain ⟨⟨d, buf'⟩, hentries, hdrawn⟩ := Option.map_eq_some_iff.mp hvisible
      have hd : drawArrows (w.setCur { w.cur with numEntries := cnt }) _ _ d = oled :=
        congrArg Prod.fst hdrawn
      have hbody : SameLine (drawHeader w.oled text) d 0 :=
        drawEntries_above _ 0 hentries hfirst hlines
      show ShowsLine oled 0 _ 0
      rw [← hd]
      exact ((drawHeader_shows w.oled hlen).congr hbody).congr
        (drawArrows_above hfirst hlast _ _)

end Header

/-! ### The screen of the firmware -/

section Screen

variable {sys : UInt16} {tbl : CmdTable} {o : PostInc} {w w' : World Vars}

/-- All entries, with the one behind the end of a menu. -/
def uiEntries : List MenuEntry := .dummy none :: menuEntries mRoot ++ menuEntries mRfRoot

theorem uiEntry_mem (l : Level) : uiEntry l ∈ uiEntries := by
  have hmenus : ∀ e ∈ menuEntries l.1, e ∈ uiEntries := by
    unfold menuEntries
    split
    · exact fun e he => List.mem_cons_of_mem _ (List.mem_append_left _ he)
    split
    · exact fun e he => List.mem_cons_of_mem _ (List.mem_append_right _ he)
    · exact fun e he => absurd he List.not_mem_nil
  unfold uiEntry
  by_cases hi : l.2 < (menuEntries l.1).length
  · rw [List.getD_eq_getElem _ _ hi]
    exact hmenus _ (List.getElem_mem hi)
  · rw [List.getD_eq_default _ _ (Nat.le_of_not_lt hi)]
    exact List.mem_cons_self

/-- None is a dropdown, and all texts are short. -/
theorem uiEntries_plain : ∀ e ∈ uiEntries, e.isDropdown = false ∧ e.label.length < 250 := by decide

theorem uiEntry_plain (l : Level) :
    (uiEntry l).isDropdown = false ∧ (uiEntry l).label.length < 250 :=
  uiEntries_plain _ (uiEntry_mem l)

theorem uiEntryText (i : Nat) :
    entryText (firmware sys) w i = (uiEntry (w.cur.menu, i)).label := by
  show (if (uiEntry (w.cur.menu, i)).isDropdown && w.opened w.cur.menu i then _ else _) = _
  rw [(uiEntry_plain _).1, Bool.false_and, if_neg Bool.false_ne_true]
  rfl

theorem UiInv.header_eq (h : UiInv sys w) :
    ∃ text, header (firmware sys) w = some text ∧ text.length < 255 ∧
      headerLine w.path = ⟨[91] ++ text ++ [93], 0⟩ := by
  rw [h.path_eq]
  cases hidx : w.menu.stackIdx with
  | zero => exact ⟨rootHeader, if_pos hidx, by decide, rfl⟩
  | succ k =>
      obtain ⟨text, htext⟩ := Option.isSome_iff_exists.mp h.toMenuInv.header
      have hparent := htext
      rw [header, if_neg (by omega), hidx] at hparent
      have hlabel : (uiEntry (w.menu.stack k).level).label = text := by
        show ((uiEntry (w.menu.stack k).level).text.map CStr.bytes).getD [] = text
        exact congrArg (Option.getD · []) hparent
      have hlen := (uiEntry_plain (w.menu.stack k).level).2
      rw [hlabel] at hlen
      refine ⟨text, htext, by omega, ?_⟩
      rw [← hlabel]
      rfl

/-- Where the menu is drawn, and that RF Debug keeps it disabled. -/
structure MenuLines (w : World Vars) : Prop where
  lineStart : w.menu.lineStart = 1
  lineEnd : w.menu.lineEnd = 5
  visibleLines : w.menu.visibleLines = if w.cur.menu = mRfDebug then 0 else 5

theorem MenuLines.le (h : MenuLines w) : w.menu.visibleLines ≤ 5 := by
  rw [h.visibleLines]
  split <;> decide

theorem debugs_path_iff (h : UiInv sys w) : Debugs w.path ↔ w.cur.menu = mRfDebug := by
  rw [Debugs, h.path_eq]
  exact Option.some_inj

theorem UiInv.drawable (h : UiInv sys w) (hlines : MenuLines w) (hmenu : w.cur.menu ≠ mRfDebug) :
    Drawable (firmware sys) (menuEntries w.cur.menu).length w where
  cur_eq := h.cur_eq
  header := h.toMenuInv.header
  menu := firmware_isMenu w.cur.menu
  length := Nat.le_trans (menuEntries_length_le _) (by decide)
  count := h.count_current (firmware_isMenu w.cur.menu)
  cursor := h.current.cursor _ (firmware_isMenu w.cur.menu)
  first := Nat.le_of_eq hlines.lineStart.symm
  ordered := by
    rw [hlines.lineStart, hlines.lineEnd]
    decide
  last := by
    rw [hlines.lineEnd]
    decide
  enabled := by rw [hlines.visibleLines, if_neg hmenu, hlines.lineStart, hlines.lineEnd]
  texts i hi text htext := by
    have hlabel : (uiEntry (w.cur.menu, i)).label = text.bytes :=
      congrArg (fun t => (t.map CStr.bytes).getD []) htext
    rw [← hlabel]
    exact (uiEntry_plain _).2
  drops i hi hdrop _ := by
    have hplain := (uiEntry_plain (w.cur.menu, i)).1
    cases hdrop.symm.trans hplain

/-- The window on a menu that fits starts at its first entry. -/
theorem UiInv.bodyLine_eq (h : UiInv sys w) (i : Nat) :
    bodyLine (firmware sys) (menuEntries w.cur.menu).length w 0 i =
        (bodyScreenLine w.path i).text ∧
      bodyMark (firmware sys) (menuEntries w.cur.menu).length w 0 i =
        (bodyScreenLine w.path i).mark := by
  rw [h.path_eq, bodyLine, bodyMark, entryLine, Nat.zero_add, uiEntryText]
  show _ = (bodyScreenLine ((w.cur.menu, w.cur.selected) :: _) i).text ∧
    _ = (bodyScreenLine ((w.cur.menu, w.cur.selected) :: _) i).mark
  rw [bodyScreenLine]
  by_cases hi : i < (menuEntries w.cur.menu).length
  · simp only [hi, true_and, if_true]
    exact ⟨rfl, trivial⟩
  · simp only [hi, false_and, if_false, and_self]

theorem drawMenu_body (h : UiInv sys w) (hlines : MenuLines w) (hmenu : w.cur.menu ≠ mRfDebug)
    (hdraw : drawMenu (firmware sys) w = some w') {i : Nat} (hi : i < 5) :
    ShowsLine w'.oled (1 + i) (bodyScreenLine w.path i).text (bodyScreenLine w.path i).mark := by
  have hdrawable := h.drawable hlines hmenu
  have hfive : w.menu.visibleLines = 5 := by rw [hlines.visibleLines, if_neg hmenu]
  have hfour := menuEntries_length_le w.cur.menu
  have hcursor := hdrawable.cursor
  have htop : 0 = w.cur.selected + 1 - w.menu.visibleLines := by omega
  have hcounted := congrArg MenuSave.numEntries
    (cur_counted w (menuEntries w.cur.menu).length)
  have hselected := congrArg MenuSave.selected (cur_counted w (menuEntries w.cur.menu).length)
  obtain ⟨oled, buf, hvisible, hcells⟩ := drawVisible_shows hdrawable.counted hcounted (.inl rfl)
    ((Nat.zero_add _).trans hselected.symm)
  have heq := drawMenu_of_drawVisible hdrawable htop hvisible
  rw [hdraw] at heq
  obtain rfl := Option.some.inj heq
  obtain ⟨htext, hmark⟩ := h.bodyLine_eq i
  rw [← htext, ← hmark]
  have hline : w.menu.lineStart + i = 1 + i := by rw [hlines.lineStart]
  refine ⟨fun y hy => ?_, fun y hy => ?_⟩
  · have hcell := (hcells i (hfive ▸ hi) y hy).1
    rw [bodyCell_counted, bodyCell, if_neg (by omega), if_neg (by omega)] at hcell
    rw [← hline]
    exact hcell
  · have hmask := (hcells i (hfive ▸ hi) y hy).2
    rw [bodyMark_counted] at hmask
    rw [← hline]
    exact hmask

/-- `DrawMenu` shows the end of the path. -/
theorem drawMenu_screen (h : UiInv sys w) (hlines : MenuLines w)
    (hdraw : drawMenu (firmware sys) w = some w') : ShowsPath w.path w'.oled := by
  intro l hl hbody
  cases l with
  | zero =>
      obtain ⟨text, htext, hlen, hheader⟩ := h.header_eq
      have hle := hlines.le
      rw [screenLine, hheader]
      refine drawMenu_header hdraw h.cur_eq htext hlen ?_ ?_ ?_
      · rw [hlines.lineStart]
      · rw [hlines.lineEnd]
        decide
      · rw [hlines.lineStart, lcdCharLines]
        omega
  | succ i =>
      rw [or_iff_right (Nat.succ_ne_zero i), debugs_path_iff h] at hbody
      have hshows := drawMenu_body h hlines hbody hdraw (Nat.lt_of_succ_le hl)
      rw [Nat.add_comm 1 i] at hshows
      exact hshows

end Screen

/-! ### The menu object -/

section MenuObject

variable {sys : UInt16} {tbl : CmdTable} {o : PostInc} {rv k : UInt8} {w w' : World Vars}
  {offers : List Offer}

/-- `rf_event_notify` leaves the menu object alone. -/
theorem rfEventNotify_menu (event : UInt8) (data : UInt16) (w : World Vars) :
    (rfEventNotify event data w).2.menu = w.menu := by
  unfold rfEventNotify
  split
  · split <;> rfl
  split
  · rfl
  split
  · rfl
  split
  · rfl
  split
  · rfl
  split
  · rfl
  split <;> rfl

/-- `rf_debug_notify` disables it while the application runs. -/
theorem rfDebugNotify_menu (rv event : UInt8) (data : UInt16) (w : World Vars) :
    (rfDebugNotify rv event data w).2.menu =
      if event = eventAppStart then (enable w false).menu
      else if event = eventAppStop then (enable w true).menu
      else w.menu := by
  by_cases hkey : event = eventKeypress
  · subst hkey
    exact rfDebugNotify_key_menu rv data w
  · unfold rfDebugNotify
    rw [if_neg hkey]
    split
    · rfl
    split <;> rfl

theorem execute_menu (f : ExecFn) (w : World Vars) : (execute f w).menu = w.menu := by
  unfold execute
  split
  · rfl
  split
  · rfl
  split
  · rfl
  split
  · rfl
  split
  · rfl
  split <;> rfl

theorem uiEventNotify_menu {menuKeyHandler : UInt8 → World Vars → Option (World Vars)}
    {event : UInt8} {data : UInt16} {r : UInt8 × World Vars} (hkey : event ≠ eventKeypress)
    (h : uiEventNotify tbl o menuKeyHandler event data w = some r) : r.2.menu = w.menu := by
  rw [uiEventNotify, if_neg hkey] at h
  split at h
  · cases h
    rfl
  split at h
  · cases h
    rfl
  split at h
  · cases h
    rfl
  split at h
  · cases h
    rfl
  split at h
  · obtain ⟨w', hparse, rfl⟩ := Option.map_eq_some_iff.mp h
    obtain ⟨ser, -, rfl⟩ := parseLine_eq hparse
    rfl
  · cases h
    rfl

namespace MenuLines

theorem congr (h : MenuLines w) (hmenu : w'.menu = w.menu) : MenuLines w' := by
  have hcur : w'.cur = w.cur := by rw [World.cur, World.cur, hmenu]
  refine ⟨?_, ?_, ?_⟩
  · rw [hmenu, h.lineStart]
  · rw [hmenu, h.lineEnd]
  · rw [hmenu, hcur, h.visibleLines]

/-- A write to the current level that stays in its menu. -/
theorem setCur (h : MenuLines w) {s : MenuSave} (hs : s.menu = w.cur.menu) :
    MenuLines (w.setCur s) := by
  refine ⟨h.lineStart, h.lineEnd, ?_⟩
  rw [cur_setCur, hs]
  exact h.visibleLines

theorem draw (h : MenuLines w) {P : Program Vars} (hdraw : drawMenu P w = some w') :
    MenuLines w' := by
  obtain ⟨cnt, oled, buf, -, rfl⟩ := drawMenu_eq hdraw
  have hcounted : MenuLines (w.setCur { w.cur with numEntries := cnt }) := h.setCur rfl
  exact hcounted.congr rfl

/-- `KEY_LEFT`: RF Debug enables the menu when it stops. -/
theorem left (h : MenuLines w) (hinv : UiInv sys w)
    (hkey : keyLeftCase (firmware sys) maxHandlers w = some (w', offers)) : MenuLines w' := by
  cases keyLeftCase_effect hkey with
  | close opened eq => exact h.congr (by rw [eq]; rfl)
  | root closed idx eq => exact eq ▸ h
  | leave closed idx unset eq =>
      -- every level that is left is that of an application
      obtain ⟨c, hcb, -, -⟩ := hinv.below_app idx
      have hset := (hinv.popMenu_bit idx).mpr (by rw [hcb]; exact Option.some_ne_none c)
      rw [hset] at unset
      cases unset
  | @leaveApp w₂ _ closed idx set stop eq =>
      obtain ⟨-, -, -, hlink⟩ := hinv.below_app idx
      have hleft : (popMenu w).cur.menu ≠ mRfDebug := by
        intro hdebug
        rw [firmware_leaf (.inr hdebug)] at hlink
        cases hlink
      have hback : (stopApp w).cur.menu = (popMenu w).cur.menu := by rw [stopApp, cur_setCur]
      have hsame := SameStack.syncevent firmware_keepsMenu stop
      obtain ⟨c, happ, hcall⟩ := hinv.leaveApp_call idx stop
      have hlines : w₂.menu.lineStart = 1 ∧ w₂.menu.lineEnd = 5 ∧ w₂.menu.visibleLines = 5 := by
        rcases happ with ⟨rfl, hmenu⟩ | ⟨rfl, -⟩
        · have hrf : w₂.menu = (stopApp w).menu := by
            rw [hcall]
            exact rfEventNotify_menu eventAppStop 0 (stopApp w)
          have hvisible := h.visibleLines
          rw [if_neg (by rw [hmenu]; decide)] at hvisible
          rw [hrf]
          exact ⟨h.lineStart, h.lineEnd, hvisible⟩
        · have hdebug : w₂.menu = (enable (stopApp w) true).menu := by
            rw [hcall]
            exact rfDebugNotify_menu 0 eventAppStop 0 (stopApp w)
          have hvisible : lineCount (stopApp w).menu.lineStart (stopApp w).menu.lineEnd = 5 := by
            show lineCount w.menu.lineStart w.menu.lineEnd = 5
            rw [h.lineStart, h.lineEnd]
            rfl
          rw [hdebug]
          exact ⟨h.lineStart, h.lineEnd, hvisible⟩
      subst eq
      refine ⟨hlines.1, hlines.2.1, hlines.2.2.trans (if_neg ?_).symm⟩
      show w₂.cur.menu ≠ mRfDebug
      rw [hsame.cur_eq, hback]
      exact hleft

/-- `KEY_RIGHT`: it disables the menu when it starts. -/
theorem right (h : MenuLines w) (hinv : UiInv sys w)
    (hkey : keyRightCase (firmware sys) maxHandlers w = some (w', offers)) : MenuLines w' := by
  cases keyRightCase_effect hkey with
  | openDrop closed eq => exact h.congr (by rw [eq]; rfl)
  | enter entry eq =>
      obtain ⟨text, c, heq, -⟩ := firmware_app (congrArg MenuEntry.next? entry)
      cases entry.symm.trans heq
  | @enterApp text next next' cb w₂ _ entry start sub eq =>
      have hnext : next' = next := by
        rw [(SameStack.syncevent firmware_keepsMenu start).entry_eq,
          (hinv.toMenuInv.startApp cb).2.2, entry] at sub
        exact (Option.some.inj sub).symm
      have hhere : w.cur.menu ≠ mRfDebug := by
        intro hdebug
        have hlink := congrArg MenuEntry.next? entry
        rw [Program.entry, firmware_leaf (.inr hdebug)] at hlink
        cases hlink
      have hvisible := h.visibleLines
      rw [if_neg hhere] at hvisible
      have hentered : (pushMenu next' w₂).cur.menu = next := by simp [pushMenu, World.cur, hnext]
      obtain ⟨c, rfl, happ, hcall⟩ := hinv.enterApp_call entry start
      have hlines : w₂.menu.lineStart = 1 ∧ w₂.menu.lineEnd = 5 ∧
          w₂.menu.visibleLines = if next = mRfDebug then 0 else 5 := by
        rcases happ with ⟨rfl, rfl⟩ | ⟨rfl, rfl⟩
        · have hrf : w₂.menu = (startApp (some rfEventNotifyCb) w).menu := by
            rw [hcall]
            exact rfEventNotify_menu eventAppStart sys _
          rw [hrf]
          exact ⟨h.lineStart, h.lineEnd, hvisible⟩
        · have hdebug : w₂.menu = (enable (startApp (some rfDebugNotifyCb) w) false).menu := by
            rw [hcall]
            exact rfDebugNotify_menu 0 eventAppStart sys _
          rw [hdebug]
          exact ⟨h.lineStart, h.lineEnd, rfl⟩
      subst eq
      exact ⟨hlines.1, hlines.2.1, hlines.2.2.trans (by rw [hentered])⟩
  | nothing leaf eq => exact eq ▸ h

/-- The switch of the key handler. -/
theorem effect (h : MenuLines w) (hinv : UiInv sys w)
    (heffect : KeyEffect (firmware sys) maxHandlers w w' k offers) : MenuLines w' := by
  cases heffect with
  | up eq =>
      subst eq
      unfold keyUpCase
      split
      · exact h.congr rfl
      · exact h.setCur rfl
  | down eq =>
      subst eq
      unfold keyDownCase
      split
      · exact h.congr rfl
      split
      · exact h
      · exact h.setCur rfl
  | left case => exact h.left hinv case
  | right case => exact h.right hinv case
  | select eq =>
      subst eq
      unfold keySelectCase
      split
      · exact h.congr (execute_menu _ w)
      · exact h
  | other up down left right eq => exact eq ▸ h

end MenuLines

end MenuObject

/-! ### Keys and applications -/

/-- The menu object stands for the path, and the display shows it. -/
structure ScreenInv (sys : UInt16) (path : List Level) (w : World Vars) : Prop extends
    MenuLines w where
  path_eq : w.path = path
  counted : Counted (firmware sys) w
  shown : ShowsPath path w.oled

section Keys

variable {sys : UInt16} {tbl : CmdTable} {o : PostInc} {rv k : UInt8} {e : EventT}
  {path : List Level} {w w' : World Vars}

/-- The application that runs is that of the current menu. -/
theorem UiInv.app_menu (h : UiInv sys w) {cb : EventNotifyCb}
    (happ : entered (firmware sys) w = [cb]) : AppMenu cb w.cur.menu := by
  have hidx : 0 < w.menu.stackIdx := by
    by_contra hzero
    have hroot : w.menu.stackIdx = 0 := by omega
    rw [h.entered_eq, hroot] at happ
    cases happ
  obtain ⟨c, hcb, hmenu, -⟩ := h.below_app hidx
  rw [h.below_filterMap hidx, hcb] at happ
  rwa [(List.cons.inj happ).1] at hmenu

namespace ScreenInv

/-- What does not draw on the lines shown. -/
theorem keeps (h : ScreenInv sys path w) (hmenu : w'.menu = w.menu)
    (hsame : ∀ l ≤ 5, (l = 0 ∨ ¬ Debugs path) → SameLine w.oled w'.oled l) :
    ScreenInv sys path w' := by
  have hstack : SameStack w w' := ⟨by rw [hmenu], by rw [hmenu], by rw [hmenu]⟩
  refine ⟨h.toMenuLines.congr hmenu, hstack.path_eq.trans h.path_eq, ?_, fun l hl hbody => ?_⟩
  · rw [Counted, hstack.cur_eq]
    exact h.counted
  · exact (h.shown l hl hbody).congr (hsame l hl hbody)

/-- A key that the menu handles moves the path and draws. -/
theorem key (h : ScreenInv sys path w) (hinv : UiInv sys w)
    (hmenu : uiKeyHandler sys k w = some w') : ScreenInv sys (uiNavigate path k) w' := by
  obtain ⟨⟨w₂, offers⟩, hkey, rfl⟩ := Option.map_eq_some_iff.mp hmenu
  obtain ⟨w₁, heffect, hdraw⟩ := keyHandler_effect hkey
  have hlines := h.toMenuLines.effect hinv heffect
  have hinv₁ : UiInv sys w₁ :=
    (heffect.handlers firmware_keepsMenu firmware_keepsHandlers hinv (hinv.handlerOk k)).1
  obtain ⟨-, hcounted, hdrawn⟩ := hinv₁.toMenuInv.draw hdraw
  have hclosed : (firmware sys).onDropdown w true = false := by
    have hplain : ((firmware sys).entry w).isDropdown = false := (uiEntry_plain w.cur.level).1
    rw [Program.onDropdown, hplain, Bool.false_and]
  have hcount : w.cur.numEntries = uiCount w.path := by
    rw [hinv.path_eq]
    exact h.counted.unique (firmware_isMenu w.cur.menu)
  have hpath : w₁.path = uiNavigate path k := by
    have hmoved := (heffect.inv firmware_keepsMenu hinv.toMenuInv).2 (by decide)
    rw [hclosed, hcount, h.path_eq] at hmoved
    exact hmoved
  refine ⟨hlines.draw hdraw, hdrawn.trans hpath, hcounted, ?_⟩
  rw [← hpath]
  exact drawMenu_screen hinv₁ hlines hdraw

/-- The application that runs keeps to line 6, or to the lines that RF Debug has taken over. -/
theorem app (h : ScreenInv sys path w) (hinv : UiInv sys w) {cb : EventNotifyCb} {rv' : UInt8}
    (happ : entered (firmware sys) w = [cb])
    (hcall : callback tbl o (uiKeyHandler sys) rv cb e.event e.data w = some (rv', w'))
    (he : EventOk e) : ScreenInv sys path w' := by
  have hcodes := he.start_stop
  rcases hinv.app_menu happ with ⟨rfl, -⟩ | ⟨rfl, hmenu⟩
  · have hrf : rfEventNotify e.event e.data w = (rv', w') := Option.some.inj hcall
    have hsame := rfEventNotify_menu e.event e.data w
    have hkeeps := rfEventNotify_keeps e.event e.data w
    rw [hrf] at hsame hkeeps
    rw [he.rfEventLine] at hkeeps
    refine h.keeps hsame fun l hl _ => hkeeps.oled l (by simp only [lcdCharLines]; omega) ?_
    rw [List.mem_singleton]
    omega
  · have hdebug : rfDebugNotify rv e.event e.data w = (rv', w') := Option.some.inj hcall
    have hsame := rfDebugNotify_menu rv e.event e.data w
    have hkeeps := rfDebugNotify_keeps rv e.event e.data w
    rw [hdebug] at hsame hkeeps
    rw [if_neg hcodes.1, if_neg hcodes.2] at hsame
    have hdebugs : Debugs path := h.path_eq ▸ (debugs_path_iff hinv).mpr hmenu
    refine h.keeps hsame fun l _ hbody => ?_
    rw [or_iff_left (not_not.mpr hdebugs)] at hbody
    subst hbody
    exact hkeeps.oled 0 (by decide) (by decide)

/-- The base handler. -/
theorem base (h : ScreenInv sys path w) (hinv : UiInv sys w)
    (hcall : uiEventNotify tbl o (uiKeyHandler sys) e.event e.data w = some (1, w')) :
    ScreenInv sys ((menuKey? e).toList.foldl uiNavigate path) w' := by
  by_cases hkey : e.event = eventKeypress
  · rw [menuKey?, if_pos hkey]
    rw [uiEventNotify, if_pos hkey] at hcall
    obtain ⟨w'', hmenu, heq⟩ := Option.map_eq_some_iff.mp hcall
    cases heq
    exact h.key hinv hmenu
  · rw [menuKey?, if_neg hkey]
    have hsame := uiEventNotify_menu hkey hcall
    have hkeeps := (uiEventNotify_keeps hkey hcall).2
    refine h.keeps hsame fun l hl _ => hkeeps.oled l (by simp only [lcdCharLines]; omega) ?_
    rw [List.mem_singleton]
    omega

end ScreenInv

end Keys

/-! ### Steps -/

section Steps

variable {sys : UInt16} {tbl : CmdTable} {o : PostInc} {rv : UInt8} {e : EventT} {path : List Level}
  {s s' : Firmware} {act : FirmwareAct} {obs : List FirmwareObs}

theorem menuKeys_append (obs obs' : List FirmwareObs) :
    menuKeys (obs ++ obs') = menuKeys obs ++ menuKeys obs' := by
  rw [menuKeys, handled_append, List.filterMap_append]
  rfl

theorem menuKeys_of_handled (h : handled obs = [e]) : menuKeys obs = (menuKey? e).toList := by
  rw [menuKeys, h]
  cases hkey : menuKey? e <;> simp [hkey]

theorem menuKeys_of_nil (h : handled obs = []) : menuKeys obs = [] := by
  rw [menuKeys, h]
  rfl

/-- The clients of the timer write variables only. -/
theorem clientCall_world (o : PostInc) (bank : List UInt8) (cb : TimetickCb) (s : Firmware) :
    ∃ f, (clientCall o bank cb s).1.ui.world = s.ui.world.setRest f := by
  unfold clientCall
  split
  · exact ⟨fun v => { v with led := !v.led }, rfl⟩
  split
  · exact ⟨fun v => { v with ser := (process o s.ser bank).1 }, rfl⟩
  split
  · exact ⟨id, rfl⟩
  split <;> exact ⟨id, rfl⟩

theorem ScreenInv.setRest {w : World Vars} (h : ScreenInv sys path w) (f : Vars → Vars) :
    ScreenInv sys path (w.setRest f) :=
  h.keeps rfl fun l _ _ => .refl w.oled l

theorem ScreenInv.timer (h : ScreenInv sys path s.ui.world) {bank : List UInt8}
    {r : Firmware × List FirmwareObs} (hisr : timerIsr o bank s = some r) :
    ScreenInv sys path r.1.ui.world := by
  obtain ⟨r', hloop, rfl⟩ := Option.map_eq_some_iff.mp hisr
  have hcall : ∀ s₁ (_ : List FirmwareObs) (_ : ClientPtr) cb, ScreenInv sys path s₁.ui.world →
      ScreenInv sys path (clientCall o bank cb s₁).1.ui.world := by
    intro s₁ _ _ cb h₁
    obtain ⟨f, heq⟩ := clientCall_world o bank cb s₁
    rw [heq]
    exact h₁.setRest f
  exact @clientLoop_keeps o s [] (fun s₁ _ => ScreenInv sys path s₁.ui.world) bank hcall _ r' h
    hloop

theorem FirmwareInv.round_screen (h : FirmwareInv sys s) (hscreen : ScreenInv sys path s.ui.world)
    (hstep : firmwareStep sys tbl o s (.round rv) = some (s', obs)) :
    ScreenInv sys ((menuKeys obs).foldl uiNavigate path) s'.ui.world := by
  obtain ⟨⟨ui, offers⟩, hround, heq⟩ := Option.map_eq_some_iff.mp hstep
  cases heq
  cases hpending : s.ui.pending with
  | none =>
      simp only [uiStep, hpending] at hround
      cases hround
      exact hscreen
  | some e =>
      have he := (h.queue.round hpending).1
      obtain ⟨w', hdispatch, -, rfl⟩ := uiStep_dispatch_inv hpending hround
      cases h.ui.inv.round_parts hdispatch with
      | base call =>
          rw [menuKeys_of_handled (e := e) rfl]
          exact hscreen.base h.ui.inv call
      | @consumed cb rv' app call ne =>
          have hcb := (h.ui.inv.app_call app call he.start_stop.1 he.start_stop.2).1
          rw [menuKeys_of_nil (by simp [handled, FirmwareObs.handled?, hcb])]
          exact hscreen.app h.ui.inv app call he
      | @passed cb w₁ app call base =>
          have hcb := (h.ui.inv.app_call app call he.start_stop.1 he.start_stop.2).1
          obtain ⟨ls, hkeeps⟩ := h.ui.inv.app_keeps app call
          rw [menuKeys_of_handled (e := e) (by simp [handled, FirmwareObs.handled?, hcb])]
          exact (hscreen.app h.ui.inv app call he).base (h.ui.inv.keeps hkeeps) base

theorem firmwareStep_screen (h : FirmwareInv sys s) (hscreen : ScreenInv sys path s.ui.world)
    (hstep : firmwareStep sys tbl o s act = some (s', obs)) :
    ScreenInv sys ((menuKeys obs).foldl uiNavigate path) s'.ui.world := by
  cases act with
  | timer bank =>
      rw [menuKeys_of_nil (timer_interrupted h.queue.view hstep).handled]
      exact hscreen.timer hstep
  | converted val =>
      obtain ⟨r, -, heq⟩ := Option.map_eq_some_iff.mp hstep
      cases heq
      rw [menuKeys_of_nil (handled_sampled r.2)]
      exact hscreen
  | pinChange =>
      rw [firmwareStep, if_pos (.inl (by rw [h.pcicr]; rfl))] at hstep
      cases hstep
  | radio regs =>
      cases hstep
      exact hscreen.setRest fun v => { v with regs := regs }
  | round rv => exact h.round_screen hscreen hstep

/-- The first screen. -/
theorem boot_screen {regs : RegFile} {mem : UsbSerial} (h : boot sys regs mem = some s) :
    ScreenInv sys (uiPath []) s.ui.world := by
  unfold boot at h
  obtain ⟨w, hsetup, rfl⟩ := Option.map_eq_some_iff.mp h
  rw [uiSetup_eq] at hsetup
  have hmenu : (uiUndrawn regs (usbSerialCtor mem)).menu = menuCtor .zero mRoot 1 5 := rfl
  have hbase : Registered (uiUndrawn regs (usbSerialCtor mem)).handlers [uiEventNotifyCb] :=
    addhandler_registered registered_zero uiEventNotifyCb
  have hinv : UiInv sys (uiUndrawn regs (usbSerialCtor mem)) :=
    handlerInv_atRoot firmware_tree ⟨_, 1, 5, hmenu, .inl rfl⟩ hbase
  have hpath := (menuInv_ctor (P := firmware sys) firmware_tree hmenu).2
  have hlines : MenuLines (uiUndrawn regs (usbSerialCtor mem)) := ⟨rfl, rfl, rfl⟩
  obtain ⟨-, hcounted, hdrawn⟩ := hinv.toMenuInv.draw hsetup
  refine ⟨hlines.draw hsetup, hdrawn.trans hpath, hcounted, ?_⟩
  have hshown := drawMenu_screen hinv hlines hsetup
  rw [hpath] at hshown
  exact hshown

end Steps

/-- In every run of the firmware, after every step, the menu object stands for the path that the
    keys given to the menu lead to, and the display shows its end: the name of the menu in the
    header, below it the entries one a line, and the entry that the next key acts on inverted, with
    all other cells of these lines as they should be. RF Debug has the lines of the entries while it
    runs; the header stays, and when it is left the entries are back. -/
theorem firmware_screen (sys : UInt16) (tbl : CmdTable) (o : PostInc) (regs : RegFile)
    (mem : UsbSerial) :
    ∃ s₀, boot sys regs mem = some s₀ ∧ ∀ acts s obs,
      run (firmwareStep sys tbl o) s₀ acts = some (s, obs) →
        s.ui.world.path = uiPath (menuKeys obs) ∧
        ShowsPath (uiPath (menuKeys obs)) s.ui.world.oled := by
  obtain ⟨s₀, hboot, hinit⟩ := boot_inv sys regs mem
  refine ⟨s₀, hboot, fun acts s obs hrun => ?_⟩
  have hkeeps : ∀ s obs act s' obs',
      FirmwareInv sys s ∧ ScreenInv sys (uiPath (menuKeys obs)) s.ui.world →
      firmwareStep sys tbl o s act = some (s', obs') →
      FirmwareInv sys s' ∧ ScreenInv sys (uiPath (menuKeys (obs ++ obs'))) s'.ui.world := by
    rintro s obs act s' obs' ⟨hinv, hscreen⟩ hstep
    refine ⟨firmwareStep_inv hinv hstep, ?_⟩
    rw [menuKeys_append, uiPath, List.foldl_append]
    exact firmwareStep_screen hinv hscreen hstep
  obtain ⟨-, hscreen⟩ := run_induction hkeeps ⟨hinit, boot_screen hboot⟩ hrun
  exact ⟨hscreen.path_eq, hscreen.shown⟩

/-- After `KEY_DOWN` line 2 shows "RF Debug" with the directory icon, and nine cells of it are
    inverted. -/
example : screenLine (uiPath [keyDown]) 2 = ⟨[32] ++ (lit "RF Debug").bytes ++ [3], 9⟩ := by
  decide

end RfPirate
