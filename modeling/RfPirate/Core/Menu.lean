/-
Module: RfPirate.Core.Menu
Layer: Core
Purpose: `Menu.cpp`: the menu object with its stack of saved levels, drawing, and the key handler.
  The menu arrays, the functions at code addresses and the tables of strings are the program; all
  the rest is the world, which callbacks and exec functions may read and change. An index of the
  stack from `MAX_MENU_DEPTH` on names the memory behind it.
Main exports: MenuSave, Menu, World, Program, menuCtor, drawVisible, drawMenu, setLineStartEnd,
  enable, keyHandler
-/
import RfPirate.Core.EvtHandler
import RfPirate.Core.MenuEntry
import RfPirate.Core.Ssd1306

namespace RfPirate

open Lib Lib.CString

def maxMenuDepth : Nat := 10

def rootHeader : List UInt8 := [77, 69, 78, 85]
def upIcon : List UInt8 := [1]
def downIcon : List UInt8 := [2]
def dirIcon : List UInt8 := [3]

/-! ### State -/

/-- `menu_save_t`. `selected` has seven bits. -/
structure MenuSave where
  menu : MenuPtr
  numEntries : Nat
  evtHdlSet : Bool
  selected : Nat
deriving DecidableEq, Repr

/-- The data members of `Menu`; `cur` points into `stack`. -/
structure Menu where
  cur : Nat
  stack : Nat → MenuSave
  stackIdx : Nat
  lineStart : Nat
  lineEnd : Nat
  visibleLines : Nat

/-- The object in zeroed static storage. -/
def Menu.zero : Menu :=
  { cur := 0, stack := fun _ => ⟨0, 0, false, 0⟩, stackIdx := 0, lineStart := 0, lineEnd := 0
    visibleLines := 0 }

/-- What the code runs in: the menu, the display, the registered handlers, the `selected` flags of
    the entries, the dropdowns, the scratch buffer of `get_text`, and anything else. -/
structure World (σ : Type*) where
  menu : Menu
  oled : Ssd1306
  handlers : HandlerList
  opened : MenuPtr → Nat → Bool
  drops : DropMem
  buf : Nat → UInt8
  rest : σ

/-- The menu arrays, the string tables of enumerations, what the functions at code addresses do, and
    the address of the context `sys`. -/
structure Program (σ : Type*) where
  menus : MenuPtr → Nat → MenuEntry
  enumText : DataPtr → Nat → CStr
  call : EventNotifyCb → UInt8 → UInt16 → World σ → UInt8 × World σ
  exec : ExecFn → World σ → World σ
  sys : UInt16

variable {σ : Type*}

/-- The program as the event handler code sees it. -/
def Program.callbacks (P : Program σ) : Callbacks (World σ) :=
  { handlers := World.handlers, call := P.call }

/-- `line_end - line_start + 1` in a byte. -/
def lineCount (lineStart lineEnd : Nat) : Nat := (lineEnd + 256 - lineStart + 1) % 256

/-- The constructor, run over the memory the object is built in. -/
def menuCtor (mem : Menu) (root : MenuPtr) (lineStart lineEnd : Nat) : Menu :=
  { cur := 0
    stack := Function.update mem.stack 0
      { menu := root, numEntries := 0, evtHdlSet := false, selected := 0 }
    stackIdx := 0
    lineStart := lineStart
    lineEnd := lineEnd
    visibleLines := lineCount lineStart lineEnd }

namespace World

/-- `*cur`. -/
def cur (w : World σ) : MenuSave := w.menu.stack w.menu.cur

/-- A write through `cur`. -/
def setCur (w : World σ) (level : MenuSave) : World σ :=
  { w with menu := { w.menu with stack := Function.update w.menu.stack w.menu.cur level } }

/-- `cur->flag.selected = n`. -/
def setSelected (w : World σ) (n : Nat) : World σ :=
  w.setCur { w.cur with selected := n % 128 }

/-- `cur->menu[cur->flag.selected].flag.selected = b`. -/
def setOpened (w : World σ) (b : Bool) : World σ :=
  { w with
    opened := Function.update w.opened w.cur.menu
      (Function.update (w.opened w.cur.menu) w.cur.selected b) }

end World

/-- `cur->menu[cur->flag.selected]`. -/
def Program.entry (P : Program σ) (w : World σ) : MenuEntry := P.menus w.cur.menu w.cur.selected

/-- The entry under the cursor is a dropdown whose flag is `b`. -/
def Program.onDropdown (P : Program σ) (w : World σ) (b : Bool) : Bool :=
  (P.entry w).isDropdown && w.opened w.cur.menu w.cur.selected == b

/-! ### Drawing -/

/-- One round of the loop of `DrawVisible`, for line `i` of the window whose first entry is `top`.
    `none` when a NULL text is read. -/
def drawEntry (P : Program σ) (w : World σ) (top selected i : Nat) (d : Ssd1306)
    (buf : Nat → UInt8) : Option (Ssd1306 × (Nat → UInt8)) :=
  let line := (i + w.menu.lineStart) % 256
  let d := clearline d line
  if i ≥ w.cur.numEntries then some (d, buf)
  else
    let e := P.menus w.cur.menu (top + i)
    let x := if i = selected then 1 else 0
    let d := if i = selected then drawstring d line 0 [32] true else d
    if e.isDropdown && w.opened w.cur.menu (top + i) then
      let buf := e.getText P.enumText w.drops buf
      some (drawstring d line x (cstr lcdCharPerLine buf) true, buf)
    else
      match e.text with
      | none => none
      | some text =>
          let d := drawstring d line x text.bytes (selected = i)
          let d := if e.next?.isSome then
              drawstring d line ((x + text.bytes.length) % 256) dirIcon false
            else d
          some (d, buf)

/-- The loop of `DrawVisible` from line `i` on, with `n` lines to go. -/
def drawEntries (P : Program σ) (w : World σ) (top selected : Nat) :
    Nat → Nat → Ssd1306 → (Nat → UInt8) → Option (Ssd1306 × (Nat → UInt8))
  | 0, _, d, buf => some (d, buf)
  | n + 1, i, d, buf =>
      match drawEntry P w top selected i d buf with
      | none => none
      | some (d, buf) => drawEntries P w top selected n (i + 1) d buf

/-- The header: the name of the root, or the text of the entry that was entered. -/
def header (P : Program σ) (w : World σ) : Option (List UInt8) :=
  if w.menu.stackIdx = 0 then some rootHeader
  else
    let parent := w.menu.stack (w.menu.stackIdx - 1)
    (P.menus parent.menu parent.selected).text.map CStr.bytes

/-- `Menu::DrawVisible`, for the entries from `top` on. -/
def drawVisible (P : Program σ) (w : World σ) (top selected : Nat) (itemsAbove itemsBelow : Bool) :
    Option (Ssd1306 × (Nat → UInt8)) :=
  match header P w with
  | none => none
  | some header =>
      let d := clearline w.oled 0
      let d := drawstring d 0 0 [91] false
      let d := drawstring d 0 1 header false
      let d := drawstring d 0 ((header.length + 1) % 256) [93] false
      match drawEntries P w top selected w.menu.visibleLines 0 d w.buf with
      | none => none
      | some (d, buf) =>
          let d := if itemsAbove then drawstring d w.menu.lineStart 20 upIcon false else d
          let d := if itemsBelow then drawstring d w.menu.lineEnd 20 downIcon false else d
          some (d, buf)

/-- The loop that counts the entries of a menu. The count is a byte, so the loop does not end when
    the first 256 texts are not NULL. -/
def countEntries (P : Program σ) (menu : MenuPtr) : Option Nat :=
  (List.range 256).find? fun cnt => (P.menus menu cnt).text.isNone

/-- `Menu::DrawMenu`. `none` when it does not return or reads a NULL text. -/
def drawMenu (P : Program σ) (w : World σ) : Option (World σ) :=
  match if w.cur.numEntries = 0 then countEntries P w.cur.menu else some w.cur.numEntries with
  | none => none
  | some cnt =>
      let w := w.setCur { w.cur with numEntries := cnt }
      let selected := w.cur.selected
      let top := if selected + 1 > w.menu.visibleLines then
          (selected + 1 - w.menu.visibleLines) % 256
        else 0
      let itemsBelow := if cnt < w.menu.visibleLines then false
        else top + w.menu.visibleLines < cnt
      match drawVisible P w top ((selected + 256 - top) % 256) (top > 0) itemsBelow with
      | none => none
      | some (oled, buf) => some { w with oled := oled, buf := buf }

/-- `Menu::SetLineStartEnd`. -/
def setLineStartEnd (P : Program σ) (w : World σ) (lineStart lineEnd : Nat) : Option (World σ) :=
  drawMenu P
    { w with
      menu := { w.menu with
        lineStart := lineStart
        lineEnd := lineEnd
        visibleLines := lineCount lineStart lineEnd } }

/-- `Menu::Enable`. -/
def enable (w : World σ) (enable : Bool) : World σ :=
  { w with
    menu := { w.menu with
      visibleLines := if enable then lineCount w.menu.lineStart w.menu.lineEnd else 0 } }

/-! ### Keys -/

/-- The case `KEY_UP` of `KeyHandler`. -/
def keyUpCase (P : Program σ) (w : World σ) : World σ :=
  if P.onDropdown w true then { w with drops := (P.entry w).increment w.drops }
  else w.setSelected (w.cur.selected - 1)

/-- The case `KEY_DOWN`. -/
def keyDownCase (P : Program σ) (w : World σ) : World σ :=
  if P.onDropdown w true then { w with drops := (P.entry w).decrement w.drops }
  else if w.cur.selected + 1 ≥ w.cur.numEntries then w
  else w.setSelected (w.cur.selected + 1)

/-- `cur = &stack[--stack_idx]`. -/
def popMenu (w : World σ) : World σ :=
  { w with menu := { w.menu with stackIdx := w.menu.stackIdx - 1, cur := w.menu.stackIdx - 1 } }

/-- The pop of `KEY_LEFT` from a level with its handler bit set: the bit is cleared before the stop
    event is sent. -/
def stopApp (w : World σ) : World σ :=
  (popMenu w).setCur { (popMenu w).cur with evtHdlSet := false }

/-- The case `KEY_LEFT`. -/
def keyLeftCase (P : Program σ) (fuel : Nat) (w : World σ) : Option (World σ × List Offer) :=
  if P.onDropdown w true then some (w.setOpened false, [])
  else if w.menu.stackIdx > 0 then
    if (popMenu w).cur.evtHdlSet then
      match evtHandlerSyncevent P.callbacks eventAppStop 0 fuel (stopApp w) with
      | none => none
      | some (w, offers) => some ({ w with handlers := evtHandlerPophandler w.handlers }, offers)
    else some (popMenu w, [])
  else some (w, [])

/-- The push of `KEY_RIGHT`: save the current level and point to the submenu. -/
def pushMenu (next : MenuPtr) (w : World σ) : World σ :=
  let idx := w.menu.stackIdx
  let stk := { w.menu.stack idx with menu := w.cur.menu, selected := w.cur.selected }
  let stack := Function.update w.menu.stack idx stk
  let idx' := (idx + 1) % 256
  let level := { stack idx' with menu := next, selected := 0, numEntries := 0 }
  { w with
    menu := { w.menu with
      stack := Function.update stack idx' level
      stackIdx := idx'
      cur := idx' } }

/-- `KEY_RIGHT` on a `TYPE_EVT_HDL` entry sets the handler bit of the level it leaves and adds the
    handler, before the start event is sent. -/
def startApp (cb : Option EventNotifyCb) (w : World σ) : World σ :=
  { w.setCur { w.cur with evtHdlSet := true } with
    handlers := evtHandlerAddhandler w.handlers cb }

/-- The case `KEY_RIGHT`. The submenu is read after the handlers have run. -/
def keyRightCase (P : Program σ) (fuel : Nat) (w : World σ) : Option (World σ × List Offer) :=
  if P.onDropdown w false then
    let w := w.setOpened true
    some ({ w with drops := (P.entry w).initializeEntry w.drops }, [])
  else
    match P.entry w with
    | .branch _ next => some (pushMenu next w, [])
    | .evtHdl _ _ cb =>
        match evtHandlerSyncevent P.callbacks eventAppStart P.sys fuel (startApp cb w) with
        | none => none
        | some (w, offers) =>
            match (P.entry w).next? with
            | none => none
            | some next => some (pushMenu next w, offers)
    | _ => some (w, [])

/-- The case `KEY_SELECT`. -/
def keySelectCase (P : Program σ) (w : World σ) : World σ :=
  match P.entry w with
  | .exec _ exec => P.exec exec w
  | _ => w

/-- The `switch` of `KeyHandler`, with the handlers it offers an event to. -/
def keyCase (P : Program σ) (fuel : Nat) (k : UInt8) (w : World σ) :
    Option (World σ × List Offer) :=
  if k = keyUp then some (keyUpCase P w, [])
  else if k = keyDown then some (keyDownCase P w, [])
  else if k = keyLeft then keyLeftCase P fuel w
  else if k = keyRight then keyRightCase P fuel w
  else if k = keySelect then some (keySelectCase P w, [])
  else some (w, [])

/-- `Menu::KeyHandler`, as a machine whose labels are the keys. -/
def keyHandler (P : Program σ) (fuel : Nat) : Machine.Step (World σ) UInt8 Offer
  | w, k =>
      match keyCase P fuel k w with
      | none => none
      | some (w, offers) =>
          match drawMenu P w with
          | none => none
          | some w => some (w, offers)

end RfPirate
