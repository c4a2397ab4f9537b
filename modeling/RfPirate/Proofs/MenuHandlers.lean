/-
Module: RfPirate.Proofs.MenuHandlers
Layer: Proofs
Purpose: Menu levels and registered handlers. A key that enters a `TYPE_EVT_HDL` entry pushes its
  callback, and the bit kept in the level it leaves tells the key that comes back to pop it. The two
  stacks stay paired as long as the pool has a node for each push; a push into the full pool is
  dropped without notice while the bit is set all the same.
Main exports: entered, HandlerLaw, HandlerOk, HandlerInv, menu_handlers, menu_handlers_fails
-/
import RfPirate.Proofs.MenuPath

namespace RfPirate

open Lib Lib.Machine

section Handlers

variable {σ : Type*}

/-- The callback registered for entering the entry of a level. -/
def enteredCb (P : Program σ) (l : Level) : Option EventNotifyCb :=
  (P.menus l.1 l.2).evtHandler?.join

/-- The callbacks of the entered `TYPE_EVT_HDL` levels, innermost first. -/
def entered (P : Program σ) (w : World σ) : List EventNotifyCb :=
  w.path.tail.filterMap (enteredCb P)

/-- `TYPE_EVT_HDL` entries have a callback. -/
def HasCallback (e : MenuEntry) : Prop := e.evtHandler? ≠ some none

/-- What a key has to satisfy: afterwards the registered handlers are those of the entered levels
    and the base handler, and the start and the stop of a level are offered to its own handler
    first. -/
def HandlerLaw (P : Program σ) (base : EventNotifyCb) (fuel : Nat) (w : World σ) (k : UInt8) :
    Prop :=
  ∀ w' offers, keyHandler P fuel w k = some (w', offers) →
    Registered w'.handlers (entered P w' ++ [base]) ∧
    (∀ cb, entered P w' = cb :: entered P w →
      offers.head? = some ⟨cb, eventAppStart, P.sys⟩) ∧
    (∀ cb, entered P w = cb :: entered P w' → offers.head? = some ⟨cb, eventAppStop, 0⟩)

/-- No `TYPE_EVT_HDL` entry is entered while the pool of handlers is full. -/
def HandlerOk (P : Program σ) (w : World σ) (k : UInt8) : Prop :=
  k = keyRight → (P.entry w).evtHandler? ≠ none → (entered P w).length < maxHandlers - 1

variable (P : Program σ) (maxLen : Nat) (base : EventNotifyCb)

/-- The handler bit is set in exactly the levels below the current one whose entry has a handler,
    and the registered handlers are theirs and the base handler. -/
structure HandlerInv (w : World σ) : Prop extends MenuInv P maxLen HasCallback w where
  bits : ∀ k, (w.menu.stack k).evtHdlSet = true ↔
    k < w.menu.stackIdx ∧ enteredCb P (w.menu.stack k).level ≠ none
  registered : Registered w.handlers (entered P w ++ [base])

variable {P maxLen base} {fuel : Nat} {w w' : World σ} {offers : List Offer}

theorem MenuInv.entered_eq {ok : MenuEntry → Prop} (h : MenuInv P maxLen ok w) :
    entered P w = (below w.menu.stack w.menu.stackIdx).filterMap (enteredCb P) := by
  rw [entered, h.path_eq, List.tail_cons]

/-- The invariant, carried to a world whose handlers, handler bits and lower levels are the same. -/
theorem HandlerInv.congr (h : HandlerInv P maxLen base w)
    (hinv : MenuInv P maxLen HasCallback w') (hidx : w'.menu.stackIdx = w.menu.stackIdx)
    (hbits : ∀ k, (w'.menu.stack k).evtHdlSet = (w.menu.stack k).evtHdlSet)
    (hlevels : ∀ k < w.menu.stackIdx, (w'.menu.stack k).level = (w.menu.stack k).level)
    (hhandlers : w'.handlers = w.handlers) :
    HandlerInv P maxLen base w' ∧ entered P w' = entered P w := by
  have hentered : entered P w' = entered P w := by
    rw [hinv.entered_eq, h.entered_eq, hidx, below_congr hlevels]
  refine ⟨⟨hinv, fun k => ?_, ?_⟩, hentered⟩
  · rw [hbits k, hidx, h.bits k]
    constructor
    · rintro ⟨hk, hcb⟩
      exact ⟨hk, by rwa [hlevels k hk]⟩
    · rintro ⟨hk, hcb⟩
      exact ⟨hk, by rwa [hlevels k hk] at hcb⟩
  · rw [hhandlers, hentered]
    exact h.registered

theorem HandlerInv.same (h : HandlerInv P maxLen base w) (hsame : SameStack w w')
    (hhandlers : w'.handlers = w.handlers) :
    HandlerInv P maxLen base w' ∧ entered P w' = entered P w :=
  h.congr (hsame.inv h.toMenuInv) hsame.stackIdx (fun k => by rw [hsame.stack])
    (fun k _ => by rw [hsame.stack]) hhandlers

/-- A write to the current level that leaves its handler bit alone. -/
theorem HandlerInv.setCur (h : HandlerInv P maxLen base w) {s : MenuSave}
    (hinv : MenuInv P maxLen HasCallback (w.setCur s)) (hbit : s.evtHdlSet = w.cur.evtHdlSet) :
    HandlerInv P maxLen base (w.setCur s) ∧ entered P (w.setCur s) = entered P w := by
  refine h.congr hinv rfl (fun k => ?_) (fun k hk => ?_) rfl
  · by_cases hk : k = w.menu.stackIdx
    · rw [hk, h.setCur_self, hbit, h.cur_def]
    · rw [h.setCur_of_ne s hk]
  · rw [h.setCur_of_ne s (Nat.ne_of_lt hk)]

/-! ### Entering and leaving -/

/-- What a key does to the entered levels, and to whom it says so first. -/
inductive Paired (P : Program σ) (w w' : World σ) (offers : List Offer) : Prop where
  | same (eq : entered P w' = entered P w)
  | started {cb : EventNotifyCb} (eq : entered P w' = cb :: entered P w)
      (first : offers.head? = some ⟨cb, eventAppStart, P.sys⟩)
  | stopped {cb : EventNotifyCb} (eq : entered P w = cb :: entered P w')
      (first : offers.head? = some ⟨cb, eventAppStop, 0⟩)

/-- A push over a level whose handler bit says whether its entry has a handler. -/
theorem HandlerInv.push (hinv : MenuInv P maxLen HasCallback w) {next : MenuPtr}
    (hnext : (P.entry w).next? = some next)
    (hbits : ∀ k, (w.menu.stack k).evtHdlSet = true ↔
      k ≤ w.menu.stackIdx ∧ enteredCb P (w.menu.stack k).level ≠ none)
    (hreg : Registered w.handlers (w.path.filterMap (enteredCb P) ++ [base])) :
    HandlerInv P maxLen base (pushMenu next w) ∧
      entered P (pushMenu next w) = w.path.filterMap (enteredCb P) := by
  obtain ⟨hinv', hpath⟩ := hinv.push hnext
  obtain ⟨-, hidx, -, hstack⟩ := hinv.push_menu hnext
  have hentered : entered P (pushMenu next w) = w.path.filterMap (enteredCb P) := by
    rw [entered, hpath, List.tail_cons]
  refine ⟨⟨hinv', fun k => ?_, ?_⟩, hentered⟩
  · rw [hstack, hidx]
    by_cases hk : k = w.menu.stackIdx + 1
    · subst hk
      rw [Function.update_self]
      refine iff_of_false ?_ (fun h => absurd h.1 (Nat.lt_irrefl _))
      show ¬ (w.menu.stack (w.menu.stackIdx + 1)).evtHdlSet = true
      rw [hbits]
      exact fun h => absurd h.1 (by omega)
    · rw [Function.update_of_ne hk, hbits k, Nat.lt_succ_iff]
  · rw [hentered]
    exact hreg

/-- The handler bits and levels of a stack in which one handler bit was written. -/
theorem update_bit (stack : Nat → MenuSave) (i : Nat) (b : Bool) (k : Nat) :
    (Function.update stack i { stack i with evtHdlSet := b } k).evtHdlSet =
        (if k = i then b else (stack k).evtHdlSet) ∧
      (Function.update stack i { stack i with evtHdlSet := b } k).level = (stack k).level := by
  by_cases hk : k = i
  · subst hk
    rw [Function.update_self, if_pos rfl]
    exact ⟨rfl, rfl⟩
  · rw [Function.update_of_ne hk, if_neg hk]
    exact ⟨rfl, rfl⟩

/-- The stack when the start event is sent. -/
theorem startApp_stack (h : MenuInv P maxLen HasCallback w) (cb : Option EventNotifyCb) :
    (startApp cb w).menu.stack = Function.update w.menu.stack w.menu.stackIdx
      { w.menu.stack w.menu.stackIdx with evtHdlSet := true } := by
  rw [← h.cur_def, ← h.cur_eq]
  rfl

theorem enteredCb_cur (w : World σ) : enteredCb P w.cur.level = (P.entry w).evtHandler?.join := rfl

/-- The levels that count as entered once the current one is. -/
theorem HandlerInv.path_filterMap (h : HandlerInv P maxLen base w) :
    w.path.filterMap (enteredCb P) = (enteredCb P w.cur.level).toList ++ entered P w := by
  rw [h.path_eq, h.entered_eq]
  cases hcb : enteredCb P w.cur.level <;> simp [hcb]

theorem evtHdl_of_evtHandler? {e : MenuEntry} (h : e.evtHandler? ≠ none) :
    ∃ text next cb, e = .evtHdl text next cb := by
  cases e with
  | evtHdl text next cb => exact ⟨text, next, cb, rfl⟩
  | _ => exact absurd rfl h

/-- A `TYPE_EVT_HDL` entry under the cursor is in the tree, so it has a callback. -/
theorem HandlerInv.callback (h : HandlerInv P maxLen base w) {text : Option CStr} {next : MenuPtr}
    {cb : Option EventNotifyCb} (hentry : P.entry w = .evtHdl text next cb) :
    ∃ c, cb = some c ∧ enteredCb P w.cur.level = some c := by
  have hcallback : HasCallback (P.entry w) :=
    (h.current.entered (congrArg MenuEntry.next? hentry)).2.1
  obtain ⟨c, rfl⟩ : ∃ c, cb = some c := by
    apply Option.ne_none_iff_exists'.mp
    rintro rfl
    exact hcallback (congrArg MenuEntry.evtHandler? hentry)
  refine ⟨c, rfl, ?_⟩
  rw [enteredCb_cur, hentry]
  rfl

/-- With a free node the handler of the entered entry is pushed and is the first to hear of it. -/
theorem HandlerInv.enterApp (hkeep : KeepsMenu P) (hquiet : KeepsHandlers P)
    (h : HandlerInv P maxLen base w) {text : Option CStr} {next next' : MenuPtr}
    {cb : Option EventNotifyCb} {w₂ : World σ} (hentry : P.entry w = .evtHdl text next cb)
    (hroom : (entered P w).length < maxHandlers - 1)
    (hstart : evtHandlerSyncevent P.callbacks eventAppStart P.sys fuel (startApp cb w) =
      some (w₂, offers))
    (hsub : (P.entry w₂).next? = some next') :
    HandlerInv P maxLen base (pushMenu next' w₂) ∧ Paired P w (pushMenu next' w₂) offers := by
  obtain ⟨c, rfl, hcb⟩ := h.callback hentry
  have hregistered : Registered (startApp (some c) w).handlers (c :: entered P w ++ [base]) := by
    have hadd := addhandler_registered h.registered c
    rwa [if_pos (by simp; omega)] at hadd
  obtain ⟨hinv₁, hpath₁, -⟩ := h.toMenuInv.startApp (some c)
  have hsame := SameStack.syncevent hkeep hstart
  have hhandlers := syncevent_sameHandlers hquiet hstart
  have hpath : w₂.path.filterMap (enteredCb P) = c :: entered P w := by
    rw [hsame.path_eq, hpath₁, h.path_filterMap, hcb]
    rfl
  have hbits : ∀ k, (w₂.menu.stack k).evtHdlSet = true ↔
      k ≤ w₂.menu.stackIdx ∧ enteredCb P (w₂.menu.stack k).level ≠ none := by
    intro k
    obtain ⟨hbit, hlevel⟩ := update_bit w.menu.stack w.menu.stackIdx true k
    have hidx : (startApp (some c) w).menu.stackIdx = w.menu.stackIdx := rfl
    rw [hsame.stack, hsame.stackIdx, startApp_stack h.toMenuInv, hbit, hlevel, hidx]
    by_cases hk : k = w.menu.stackIdx
    · subst hk
      rw [if_pos rfl, ← h.cur_def, hcb]
      simp
    · rw [if_neg hk, h.bits k, Nat.le_iff_lt_or_eq, or_iff_left hk]
  obtain ⟨hinv, heq⟩ := HandlerInv.push (hsame.inv hinv₁) hsub hbits (by
    rw [hpath, hhandlers]
    exact hregistered)
  exact ⟨hinv, .started (heq.trans hpath) (syncevent_first hregistered hstart)⟩

theorem keyRightCase_handlers (hkeep : KeepsMenu P) (hquiet : KeepsHandlers P)
    (h : HandlerInv P maxLen base w) (hok : HandlerOk P w keyRight)
    (hkey : keyRightCase P fuel w = some (w', offers)) :
    HandlerInv P maxLen base w' ∧ Paired P w w' offers := by
  cases keyRightCase_effect hkey with
  | openDrop closed eq =>
      subst eq
      have hsame : SameStack w { w.setOpened true with
          drops := (P.entry (w.setOpened true)).initializeEntry w.drops } := ⟨rfl, rfl, rfl⟩
      obtain ⟨hinv, heq⟩ := h.same hsame rfl
      exact ⟨hinv, .same heq⟩
  | enter entry eq =>
      subst eq
      have hnone : enteredCb P w.cur.level = none := by
        rw [enteredCb_cur, entry]
        rfl
      have hpath : w.path.filterMap (enteredCb P) = entered P w := by
        rw [h.path_filterMap, hnone]
        rfl
      have hbits : ∀ k, (w.menu.stack k).evtHdlSet = true ↔
          k ≤ w.menu.stackIdx ∧ enteredCb P (w.menu.stack k).level ≠ none := by
        intro k
        rw [h.bits k]
        constructor
        · exact fun hk => ⟨Nat.le_of_lt hk.1, hk.2⟩
        · rintro ⟨hk, hcb⟩
          refine ⟨Nat.lt_of_le_of_ne hk ?_, hcb⟩
          rintro rfl
          rw [← h.cur_def] at hcb
          exact hcb hnone
      obtain ⟨hinv, heq⟩ := HandlerInv.push h.toMenuInv (congrArg MenuEntry.next? entry) hbits
        (hpath.symm ▸ h.registered)
      exact ⟨hinv, .same (heq.trans hpath)⟩
  | enterApp entry start sub eq =>
      subst eq
      have hroom : (entered P w).length < maxHandlers - 1 := by
        apply hok rfl
        rw [entry]
        simp [MenuEntry.evtHandler?]
      exact h.enterApp hkeep hquiet entry hroom start sub
  | nothing leaf eq =>
      subst eq
      exact ⟨h, .same rfl⟩

/-- The level that `KEY_LEFT` comes back to. -/
theorem HandlerInv.below_filterMap (h : HandlerInv P maxLen base w) (hidx : 0 < w.menu.stackIdx) :
    entered P w = (enteredCb P (popMenu w).cur.level).toList ++ entered P (popMenu w) := by
  obtain ⟨i, hi⟩ : ∃ i, w.menu.stackIdx = i + 1 := ⟨w.menu.stackIdx - 1, by omega⟩
  have hcur : (popMenu w).cur = w.menu.stack i := by simp [World.cur, popMenu, hi]
  rw [h.entered_eq, entered, (h.toMenuInv.pop hidx).2, hcur, hi, below, List.tail_cons]
  cases hcb : enteredCb P (w.menu.stack i).level <;> simp [hcb]

/-- The handler bit of that level tells whether its entry has a handler. -/
theorem HandlerInv.popMenu_bit (h : HandlerInv P maxLen base w) (hidx : 0 < w.menu.stackIdx) :
    (popMenu w).cur.evtHdlSet = true ↔ enteredCb P (popMenu w).cur.level ≠ none := by
  have hcur : (popMenu w).cur = w.menu.stack (w.menu.stackIdx - 1) := rfl
  rw [hcur, h.bits]
  exact and_iff_right (by omega)

/-- The stack when the stop event is sent. -/
theorem stopApp_stack (w : World σ) :
    (stopApp w).menu.stack = Function.update w.menu.stack (w.menu.stackIdx - 1)
      { w.menu.stack (w.menu.stackIdx - 1) with evtHdlSet := false } := rfl

/-- The handler of the level that is left hears of it first and is the one popped. -/
theorem HandlerInv.leaveApp (hkeep : KeepsMenu P) (hquiet : KeepsHandlers P)
    (h : HandlerInv P maxLen base w) (hidx : 0 < w.menu.stackIdx)
    (hset : (popMenu w).cur.evtHdlSet = true) {w₂ : World σ}
    (hstop : evtHandlerSyncevent P.callbacks eventAppStop 0 fuel (stopApp w) = some (w₂, offers))
    (heq : w' = { w₂ with handlers := evtHandlerPophandler w₂.handlers }) :
    HandlerInv P maxLen base w' ∧ Paired P w w' offers := by
  obtain ⟨c, hcb⟩ := Option.ne_none_iff_exists'.mp ((h.popMenu_bit hidx).mp hset)
  have hentered : entered P w = c :: entered P (popMenu w) := by
    rw [h.below_filterMap hidx, hcb]
    rfl
  have hregistered : Registered (stopApp w).handlers (c :: (entered P (popMenu w) ++ [base])) := by
    have hreg := h.registered
    rwa [hentered] at hreg
  have hsync := SameStack.syncevent hkeep hstop
  have hhandlers := syncevent_sameHandlers hquiet hstop
  have hsame : SameStack (stopApp w) w' := by
    subst heq
    exact hsync.trans ⟨rfl, rfl, rfl⟩
  obtain ⟨hinv, hpath⟩ := h.toMenuInv.stopApp hidx
  have hentered' : entered P w' = entered P (popMenu w) := by
    rw [entered, hsame.path_eq, hpath, entered, (h.toMenuInv.pop hidx).2]
  refine ⟨⟨hsame.inv hinv, fun k => ?_, ?_⟩, .stopped ?_ (syncevent_first hregistered hstop)⟩
  · obtain ⟨hbit, hlevel⟩ := update_bit w.menu.stack (w.menu.stackIdx - 1) false k
    have hidx' : (stopApp w).menu.stackIdx = w.menu.stackIdx - 1 := rfl
    rw [hsame.stack, hsame.stackIdx, stopApp_stack, hbit, hlevel, hidx']
    by_cases hk : k = w.menu.stackIdx - 1
    · rw [if_pos hk]
      exact iff_of_false Bool.false_ne_true (fun hlt => absurd hlt.1 (by omega))
    · rw [if_neg hk, h.bits k]
      have hbound : k < w.menu.stackIdx ↔ k < w.menu.stackIdx - 1 := by omega
      rw [hbound]
  · rw [hentered', heq]
    show Registered (evtHandlerPophandler w₂.handlers) _
    rw [hhandlers]
    exact pophandler_registered hregistered
  · rw [hentered, hentered']

theorem keyLeftCase_handlers (hkeep : KeepsMenu P) (hquiet : KeepsHandlers P)
    (h : HandlerInv P maxLen base w) (hkey : keyLeftCase P fuel w = some (w', offers)) :
    HandlerInv P maxLen base w' ∧ Paired P w w' offers := by
  cases keyLeftCase_effect hkey with
  | close opened eq =>
      subst eq
      have hsame : SameStack w (w.setOpened false) := ⟨rfl, rfl, rfl⟩
      obtain ⟨hinv, heq⟩ := h.same hsame rfl
      exact ⟨hinv, .same heq⟩
  | root closed idx eq =>
      subst eq
      exact ⟨h, .same rfl⟩
  | leave closed idx unset eq =>
      subst eq
      have hnone : enteredCb P (popMenu w).cur.level = none := by
        by_contra hne
        rw [(h.popMenu_bit idx).mpr hne] at unset
        exact Bool.noConfusion unset
      have hentered := h.below_filterMap idx
      rw [hnone, Option.toList_none, List.nil_append] at hentered
      refine ⟨⟨(h.toMenuInv.pop idx).1, fun k => ?_, ?_⟩, .same hentered.symm⟩
      · show (w.menu.stack k).evtHdlSet = true ↔ k < w.menu.stackIdx - 1 ∧ _
        rw [h.bits k]
        constructor
        · rintro ⟨hk, hcb⟩
          refine ⟨?_, hcb⟩
          have hne : k ≠ w.menu.stackIdx - 1 := by
            rintro rfl
            exact hcb hnone
          omega
        · rintro ⟨hk, hcb⟩
          exact ⟨by omega, hcb⟩
      · rw [← hentered]
        exact h.registered
  | leaveApp closed idx set stop eq => exact h.leaveApp hkeep hquiet idx set stop eq

theorem keyUpCase_handlers (h : HandlerInv P maxLen base w) :
    HandlerInv P maxLen base (keyUpCase P w) ∧ entered P (keyUpCase P w) = entered P w := by
  have hinv := (keyUpCase_inv h.toMenuInv).1
  unfold keyUpCase at hinv ⊢
  cases hopen : P.onDropdown w true with
  | true => exact h.same ⟨rfl, rfl, rfl⟩ rfl
  | false =>
      simp only [hopen, Bool.false_eq_true, if_false] at hinv
      exact h.setCur hinv rfl

theorem keyDownCase_handlers (h : HandlerInv P maxLen base w) :
    HandlerInv P maxLen base (keyDownCase P w) ∧ entered P (keyDownCase P w) = entered P w := by
  have hinv := (keyDownCase_inv h.toMenuInv).1
  unfold keyDownCase at hinv ⊢
  cases hopen : P.onDropdown w true with
  | true => exact h.same ⟨rfl, rfl, rfl⟩ rfl
  | false =>
      simp only [hopen, Bool.false_eq_true, if_false] at hinv ⊢
      by_cases hend : w.cur.selected + 1 ≥ w.cur.numEntries
      · rw [if_pos hend]
        exact ⟨h, rfl⟩
      · rw [if_neg hend] at hinv ⊢
        exact h.setCur hinv rfl

theorem keySelectCase_handlers (hkeep : KeepsMenu P) (hquiet : KeepsHandlers P)
    (h : HandlerInv P maxLen base w) :
    HandlerInv P maxLen base (keySelectCase P w) ∧ entered P (keySelectCase P w) = entered P w := by
  refine h.same (keySelectCase_same hkeep) ?_
  unfold keySelectCase
  split
  · exact hquiet.exec _ w
  · rfl

/-- The switch keeps levels and handlers paired while the pool has room for what is entered. -/
theorem KeyEffect.handlers (hkeep : KeepsMenu P) (hquiet : KeepsHandlers P)
    (h : HandlerInv P maxLen base w) {k : UInt8} (hok : HandlerOk P w k)
    (hkey : KeyEffect P fuel w w' k offers) :
    HandlerInv P maxLen base w' ∧ Paired P w w' offers := by
  cases hkey with
  | up eq =>
      subst eq
      exact ⟨(keyUpCase_handlers h).1, .same (keyUpCase_handlers h).2⟩
  | down eq =>
      subst eq
      exact ⟨(keyDownCase_handlers h).1, .same (keyDownCase_handlers h).2⟩
  | left case => exact keyLeftCase_handlers hkeep hquiet h case
  | right case => exact keyRightCase_handlers hkeep hquiet h hok case
  | select eq =>
      subst eq
      obtain ⟨hinv, heq⟩ := keySelectCase_handlers hkeep hquiet h
      exact ⟨hinv, .same heq⟩
  | other up down left right eq =>
      subst eq
      exact ⟨h, .same rfl⟩

theorem HandlerInv.draw (h : HandlerInv P maxLen base w) (hdraw : drawMenu P w = some w') :
    HandlerInv P maxLen base w' ∧ entered P w' = entered P w := by
  have hinv := (h.toMenuInv.draw hdraw).1
  obtain ⟨cnt, oled, buf, -, heq⟩ := drawMenu_eq hdraw
  have hback : SameStack w' (w.setCur { w.cur with numEntries := cnt }) := by
    rw [heq]
    exact ⟨rfl, rfl, rfl⟩
  have hsame : SameStack (w.setCur { w.cur with numEntries := cnt }) w' := by
    rw [heq]
    exact ⟨rfl, rfl, rfl⟩
  obtain ⟨hset, hentered⟩ := h.setCur (hback.inv hinv) rfl
  obtain ⟨hinv', hentered'⟩ := hset.same hsame (by rw [heq])
  exact ⟨hinv', hentered'.trans hentered⟩

theorem keyHandler_handlers (hkeep : KeepsMenu P) (hquiet : KeepsHandlers P)
    (h : HandlerInv P maxLen base w) {k : UInt8} (hok : HandlerOk P w k)
    (hkey : keyHandler P fuel w k = some (w', offers)) :
    HandlerInv P maxLen base w' ∧ Paired P w w' offers := by
  obtain ⟨w₁, heffect, hdraw⟩ := keyHandler_effect hkey
  obtain ⟨hinv, hpaired⟩ := heffect.handlers hkeep hquiet h hok
  obtain ⟨hinv', heq⟩ := hinv.draw hdraw
  refine ⟨hinv', ?_⟩
  cases hpaired with
  | same eq => exact .same (heq.trans eq)
  | started eq first => exact .started (heq.trans eq) first
  | stopped eq first => exact .stopped (eq.trans (by rw [heq])) first

/-- What the levels tell about the handlers is the law. -/
theorem handlerLaw_of_inv (hkeep : KeepsMenu P) (hquiet : KeepsHandlers P)
    (h : HandlerInv P maxLen base w) {k : UInt8} (hok : HandlerOk P w k) :
    HandlerLaw P base fuel w k := by
  intro w' offers hkey
  obtain ⟨hinv, hpaired⟩ := keyHandler_handlers hkeep hquiet h hok hkey
  refine ⟨hinv.registered, fun cb hcb => ?_, fun cb hcb => ?_⟩
  · cases hpaired with
    | same eq => exact absurd (hcb.symm.trans eq) (List.cons_ne_self cb _)
    | started eq first => exact (List.cons.inj (hcb.symm.trans eq)).1 ▸ first
    | stopped eq first =>
        have hlen := congrArg List.length eq
        rw [hcb] at hlen
        simp only [List.length_cons] at hlen
        omega
  · cases hpaired with
    | same eq => exact absurd (hcb.symm.trans eq.symm) (List.cons_ne_self cb _)
    | started eq first =>
        have hlen := congrArg List.length eq
        rw [hcb] at hlen
        simp only [List.length_cons] at hlen
        omega
    | stopped eq first => exact (List.cons.inj (hcb.symm.trans eq)).1 ▸ first

/-- Entering with the pool full breaks the law at once: there are more levels than nodes. -/
theorem handlerOk_of_law (hkeep : KeepsMenu P) (hquiet : KeepsHandlers P) (hlen : maxLen < 256)
    (hfuel : maxHandlers ≤ fuel) (h : HandlerInv P maxLen base w) {k : UInt8}
    (hlaw : HandlerLaw P base fuel w k) : HandlerOk P w k := by
  intro hk hentry
  obtain ⟨text, next, cb, heq⟩ := evtHdl_of_evtHandler? hentry
  have hnext : (P.entry w).next? = some next := congrArg MenuEntry.next? heq
  obtain ⟨c, -, hcb⟩ := h.callback heq
  obtain ⟨w', offers, hkey, -⟩ :=
    keyHandler_total hkeep hquiet h.toMenuInv ⟨_, h.registered⟩ hlen hfuel k
  have hregistered := (hlaw w' offers hkey).1
  obtain ⟨w₁, heffect, hdraw⟩ := keyHandler_effect hkey
  have hright : keyRightCase P fuel w = some (w₁, offers) := by
    cases heffect with
    | right case => exact case
    | up => exact absurd hk (by decide)
    | down => exact absurd hk (by decide)
    | left => exact absurd hk (by decide)
    | select => exact absurd hk (by decide)
    | other _ _ _ right => exact absurd hk right
  obtain ⟨hinv, hpath⟩ := keyRightCase_inv hkeep h.toMenuInv hright 0
  rw [h.navigate_right, hnext] at hpath
  have hentered : entered P w' = c :: entered P w := by
    rw [entered, (hinv.draw hdraw).2.2, hpath, List.tail_cons, h.path_filterMap, hcb]
    rfl
  have hfit := hregistered.length_le
  rw [hentered] at hfit
  simp only [List.length_append, List.length_cons, List.length_nil] at hfit
  omega

/-- The menu object as constructed in zeroed storage, drawn or not yet. -/
def AtRoot (P : Program σ) (root : MenuPtr) (w : World σ) : Prop :=
  ∃ w₀ lineStart lineEnd, w₀.menu = menuCtor .zero root lineStart lineEnd ∧
    (w = w₀ ∨ drawMenu P w₀ = some w)

theorem handlerInv_atRoot {root : MenuPtr}
    (htree : MenuTree P.menus maxLen HasCallback maxMenuDepth root) (hstart : AtRoot P root w)
    (hbase : Registered w.handlers [base]) : HandlerInv P maxLen base w := by
  obtain ⟨w₀, lineStart, lineEnd, hmenu, hdrawn⟩ := hstart
  have hsame : w.handlers = w₀.handlers := by
    rcases hdrawn with rfl | hdraw
    · rfl
    · obtain ⟨cnt, oled, buf, -, rfl⟩ := drawMenu_eq hdraw
      rfl
  obtain ⟨hinv, hpath⟩ := menuInv_ctor htree hmenu
  have hctor : HandlerInv P maxLen base w₀ := by
    refine ⟨hinv, fun k => ?_, ?_⟩
    · have hbit : (w₀.menu.stack k).evtHdlSet = false := by
        rw [hmenu]
        by_cases hk : k = 0
        · subst hk
          simp [menuCtor]
        · simp [menuCtor, Function.update_of_ne hk, Menu.zero]
      have hidx : w₀.menu.stackIdx = 0 := by
        rw [hmenu]
        rfl
      rw [hbit, hidx]
      simp
    · rw [entered, hpath, ← hsame]
      exact hbase
  rcases hdrawn with rfl | hdraw
  · exact hctor
  · exact (hctor.draw hdraw).1

/-- In every run of keys from the root menu in which no `TYPE_EVT_HDL` entry is entered while
    `MAX_HANDLERS - 1` of them are, the registered handlers are those of the entered levels and the
    base handler. If no array has 256 entries, runs go to their end, and no other run obeys the law.
    -/
theorem menu_handlers (P : Program σ) (hkeep : KeepsMenu P) (hquiet : KeepsHandlers P)
    {root : MenuPtr} (htree : MenuTree P.menus maxLen HasCallback maxMenuDepth root)
    (hstart : AtRoot P root w) (hbase : Registered w.handlers [base]) (fuel : Nat)
    (keys : List UInt8) :
    (Guarded (keyHandler P fuel) (HandlerOk P) w keys →
      Guarded (keyHandler P fuel) (HandlerLaw P base fuel) w keys) ∧
    (maxLen < 256 → maxHandlers ≤ fuel →
      (Guarded (keyHandler P fuel) (HandlerLaw P base fuel) w keys ↔
        Guarded (keyHandler P fuel) (HandlerOk P) w keys) ∧
      (run (keyHandler P fuel) w keys).isSome) := by
  have hinit := handlerInv_atRoot htree hstart hbase
  have hkeeps : ∀ w k w' offers, HandlerInv P maxLen base w → HandlerOk P w k →
      keyHandler P fuel w k = some (w', offers) → HandlerInv P maxLen base w' :=
    fun w k w' offers h hok hkey => (keyHandler_handlers hkeep hquiet h hok hkey).1
  constructor
  · exact Guarded.imp (fun w k h hok => handlerLaw_of_inv hkeep hquiet h hok) hkeeps hinit
  · intro hlen hfuel
    refine ⟨guarded_iff (fun w k h => ?_) hkeeps hinit, ?_⟩
    · constructor
      · exact handlerOk_of_law hkeep hquiet hlen hfuel h
      · exact handlerLaw_of_inv hkeep hquiet h
    · exact keys_total hkeep hquiet hlen hfuel hinit.toMenuInv ⟨_, hbase⟩ keys

end Handlers

/-- The first application is entered and left. -/
theorem menu_handlers_enter_leave :
    Guarded (keyHandler nestedApps 3) (HandlerLaw nestedApps 9 3) nestedAppsWorld
        [keyRight, keyLeft] ∧
      (run (keyHandler nestedApps 3) nestedAppsWorld [keyRight, keyLeft]).isSome := by
  obtain ⟨hlaw, hreturns⟩ := menu_handlers nestedApps nestedApps_keepsMenu nestedApps_keepsHandlers
    (nestedApps_tree (Nat.le_refl 1) (fun menu => by simp [HasCallback, MenuEntry.evtHandler?]) 3 0
      maxMenuDepth rfl (by decide))
    ⟨nestedAppsWorld, 1, 5, rfl, Or.inl rfl⟩ (addhandler_registered registered_zero 9)
    3 [keyRight, keyLeft]
  refine ⟨hlaw ?_, (hreturns (by decide) (Nat.le_refl 3)).2⟩
  refine ⟨fun _ _ => by decide, fun w₁ o₁ _ => ⟨fun hk => ?_, fun _ _ _ => trivial⟩⟩
  exact absurd hk (by decide)

/-- Three nested applications: the handler of the third is not added, and on the way back three
    handlers are popped, so that the base handler is gone at the root. -/
theorem menu_handlers_fails :
    ¬ Guarded (keyHandler nestedApps 3) (HandlerLaw nestedApps 9 3) nestedAppsWorld
      [keyRight, keyRight, keyRight, keyLeft, keyLeft, keyLeft] := by
  intro h
  have hhead : ((run (keyHandler nestedApps 3) nestedAppsWorld
      [keyRight, keyRight, keyRight, keyLeft, keyLeft, keyLeft]).map
        fun r => r.1.handlers.head) = some none := by
    decide +kernel
  obtain ⟨⟨w, offers⟩, hrun, hnone⟩ := Option.map_eq_some_iff.mp hhead
  have hkeys : ∀ w (o : List Offer) k w' o', Registered w.handlers (entered nestedApps w ++ [9]) →
      HandlerLaw nestedApps 9 3 w k → keyHandler nestedApps 3 w k = some (w', o') →
        Registered w'.handlers (entered nestedApps w' ++ [9]) :=
    fun w _ k w' o' _ hlaw hkey => (hlaw w' o' hkey).1
  have hinit : Registered nestedAppsWorld.handlers (entered nestedApps nestedAppsWorld ++ [9]) :=
    addhandler_registered registered_zero 9
  have hbase := run_guarded_induction _ hkeys hinit h hrun
  exact hbase.head_ne_none (by simp) hnone

end RfPirate
