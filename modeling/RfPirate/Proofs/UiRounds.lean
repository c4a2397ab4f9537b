/-
Module: RfPirate.Proofs.UiRounds
Layer: Proofs
Purpose: One round of the dispatcher: which handlers it calls, what they write of the variables, and
  when it returns. Keys, readings and the rest always do. A line goes on to the base handler whoever
  runs, and the round returns if the parse does.
Main exports: Handled, rfEventNotify_rest, rfDebugNotify_rest, execute_rest, firmware_call_rest,
  uiKeyHandler_keeps, RoundParts, UiInv.round_parts, UiInv.round_shared, UiInv.dispatch_line
-/
import RfPirate.Proofs.SerialMachine
import RfPirate.Proofs.Ui

namespace RfPirate

open Lib Lib.Machine

section Rounds

variable {sys : UInt16} {tbl : CmdTable} {o : PostInc} {rv : UInt8} {e : EventT}
  {w w' : World Vars} {offers : List Offer}

/-! ### What handlers write -/

/-- Applications probe the radio when they start, and write a variable of their own. -/
theorem rfEventNotify_rest (event : UInt8) (data : UInt16) (w : World Vars) :
    ∃ led, (rfEventNotify event data w).2.rest =
      { (if event = eventAppStart then w.probe.rest else w.rest) with led := led } := by
  unfold rfEventNotify
  split
  · split <;> exact ⟨_, rfl⟩
  split
  · exact ⟨_, rfl⟩
  split
  · exact ⟨_, rfl⟩
  split
  · exact ⟨_, rfl⟩
  split
  · exact ⟨_, rfl⟩
  split
  · exact ⟨_, rfl⟩
  split <;> exact ⟨_, rfl⟩

theorem rfDebugNotify_rest (rv event : UInt8) (data : UInt16) (w : World Vars) :
    ∃ regAddr, (rfDebugNotify rv event data w).2.rest =
      { (if event = eventAppStart then w.probe.rest else w.rest) with regAddr := regAddr } := by
  have hscroll : ∀ (p : Prop) [Decidable p] (regAddr : UInt8), ∃ regAddr',
      (if p then { w.rest with regAddr := regAddr } else w.rest) =
        { w.rest with regAddr := regAddr' } := by
    intro p _ regAddr
    split <;> exact ⟨_, rfl⟩
  unfold rfDebugNotify
  split
  · exact ⟨_, rfl⟩
  split
  · exact ⟨_, rfl⟩
  split
  · split
    · exact hscroll _ _
    split
    · exact hscroll _ _
    split <;> exact ⟨_, rfl⟩
  · exact ⟨_, rfl⟩

/-- The functions that the menu executes. -/
theorem execute_rest (f : ExecFn) (w : World Vars) : ∃ regs pshold bootloader,
    (execute f w).rest =
      { w.rest with regs := regs, pshold := pshold, bootloader := bootloader } := by
  unfold execute
  split
  · exact ⟨_, _, _, rfl⟩
  split
  · exact ⟨_, _, _, rfl⟩
  split
  · exact ⟨_, _, _, rfl⟩
  split
  · exact ⟨_, _, _, rfl⟩
  split
  · exact ⟨_, _, _, rfl⟩
  split <;> exact ⟨_, _, _, rfl⟩

/-- A line goes to the parser. -/
theorem uiEventNotify_line {event : UInt8} (h : event = eventSerialRecv)
    {menuKeyHandler : UInt8 → World Vars → Option (World Vars)} {data : UInt16} :
    uiEventNotify tbl o menuKeyHandler event data w = (parseLine tbl o data w).map ((1, ·)) := by
  subst h
  rfl

/-- The base handler writes the battery icon and the serial object, but for keys. -/
theorem uiEventNotify_rest {menuKeyHandler : UInt8 → World Vars → Option (World Vars)}
    {event : UInt8} {data : UInt16} {r : UInt8 × World Vars} (hkey : event ≠ eventKeypress)
    (h : uiEventNotify tbl o menuKeyHandler event data w = some r) :
    ∃ battIcon ser, r.2.rest = { w.rest with battIcon := battIcon, ser := ser } := by
  rw [uiEventNotify, if_neg hkey] at h
  split at h
  · cases h
    exact ⟨_, _, rfl⟩
  split at h
  · cases h
    exact ⟨_, _, rfl⟩
  split at h
  · cases h
    exact ⟨_, _, rfl⟩
  split at h
  · cases h
    exact ⟨_, _, rfl⟩
  split at h
  · obtain ⟨w', hparse, rfl⟩ := Option.map_eq_some_iff.mp h
    obtain ⟨ser, -, rfl⟩ := parseLine_eq hparse
    exact ⟨_, ser, rfl⟩
  · cases h
    exact ⟨_, _, rfl⟩

/-- The events of entering and leaving an application. -/
theorem firmware_call_rest {event : UInt8} (hevent : event = eventAppStart ∨ event = eventAppStop)
    (cb : EventNotifyCb) (data : UInt16) (w : World Vars) : ∃ led regAddr,
      ((firmware sys).call cb event data w).2.rest =
        { (if event = eventAppStart ∧ (cb = rfEventNotifyCb ∨ cb = rfDebugNotifyCb) then
            w.probe.rest else w.rest) with led := led, regAddr := regAddr } := by
  have hother : ∀ {cb}, cb ≠ rfEventNotifyCb → cb ≠ rfDebugNotifyCb →
      ¬ (event = eventAppStart ∧ (cb = rfEventNotifyCb ∨ cb = rfDebugNotifyCb)) :=
    fun hrf hdebug hand => hand.2.elim hrf hdebug
  show ∃ led regAddr,
    ((callback cmdTbl .unchanged (fun _ w => some w) 0 cb event data w).getD (0, w)).2.rest = _
  unfold callback
  split
  · rename_i hcb
    subst hcb
    rw [if_neg (hother (by decide) (by decide))]
    rcases hevent with rfl | rfl <;> exact ⟨_, _, rfl⟩
  split
  · rename_i hcb
    subst hcb
    obtain ⟨led, hrest⟩ := rfEventNotify_rest event data w
    exact ⟨led, _, hrest.trans (by simp only [true_or, and_true]; rfl)⟩
  split
  · rename_i hcb
    subst hcb
    obtain ⟨regAddr, hrest⟩ := rfDebugNotify_rest 0 event data w
    exact ⟨_, regAddr, hrest.trans (by simp only [or_true, and_true]; rfl)⟩
  · rename_i hrf hdebug
    rw [if_neg (hother hrf hdebug)]
    exact ⟨_, _, rfl⟩

/-- What a key keeps of the variables: what the events of entering and leaving an application keep,
    and the function under the cursor if the key is `KEY_SELECT`. -/
theorem uiKeyHandler_keeps (inv : Vars → Prop) {k : UInt8}
    (hcall : ∀ cb event data w, event = eventAppStart ∨ event = eventAppStop → inv w.rest →
      inv ((firmware sys).call cb event data w).2.rest)
    (hexec : ∀ text f, k = keySelect → (firmware sys).entry w = .exec text f → inv w.rest →
      inv (execute f w).rest)
    (hw : inv w.rest) (h : uiKeyHandler sys k w = some w') : inv w'.rest := by
  have hsync : ∀ {event data w₁ w₂ offers}, event = eventAppStart ∨ event = eventAppStop →
      evtHandlerSyncevent (firmware sys).callbacks event data maxHandlers w₁ = some (w₂, offers) →
      inv w₁.rest → inv w₂.rest := by
    intro event data w₁ w₂ offers hevent hsync hw₁
    have hcalls : ∀ cb (w : World Vars), inv w.rest →
        inv ((firmware sys).callbacks.call cb event data w).2.rest :=
      fun cb w hw => hcall cb event data w hevent hw
    exact @syncevent_keeps _ _ event data (fun w => inv w.rest) _ w₁ w₂ offers hcalls hsync hw₁
  obtain ⟨⟨w₂, offers⟩, hkey, rfl⟩ := Option.map_eq_some_iff.mp h
  obtain ⟨w₁, heffect, hdraw⟩ := keyHandler_effect hkey
  obtain ⟨cnt, oled, buf, -, rfl⟩ := drawMenu_eq hdraw
  show inv w₁.rest
  cases heffect with
  | up eq =>
      subst eq
      unfold keyUpCase
      split <;> exact hw
  | down eq =>
      subst eq
      unfold keyDownCase
      split
      · exact hw
      split <;> exact hw
  | left case =>
      cases keyLeftCase_effect case with
      | close opened eq => exact eq ▸ hw
      | root closed idx eq => exact eq ▸ hw
      | leave closed idx unset eq => exact eq ▸ hw
      | leaveApp closed idx set stop eq =>
          subst eq
          have hsent := hsync (.inr rfl) stop hw
          exact hsent
  | right case =>
      cases keyRightCase_effect case with
      | openDrop closed eq => exact eq ▸ hw
      | enter entry eq => exact eq ▸ hw
      | enterApp entry start sub eq =>
          subst eq
          have hsent := hsync (.inl rfl) start hw
          exact hsent
      | nothing leaf eq => exact eq ▸ hw
  | select eq =>
      subst eq
      unfold keySelectCase
      split
      · rename_i text f hentry
        exact hexec text f rfl hentry hw
      · exact hw
  | other up down left right eq => exact eq ▸ hw

/-! ### What the handlers share with the interrupts -/

/-- The battery icon and the serial object are the same. -/
structure SameShared (v v' : Vars) : Prop where
  battIcon : v'.battIcon = v.battIcon
  ser : v'.ser = v.ser

/-- What the base handler makes of an event: the icon of a reading, and the parse of a line. -/
structure Handled (tbl : CmdTable) (o : PostInc) (e : EventT) (v v' : Vars) : Prop where
  battIcon : v'.battIcon =
    if e.event = eventVbatt then updateVbatt e.data.toUInt8 else v.battIcon
  ser : some v'.ser =
    if e.event = eventSerialRecv then v.ser.parseCmd tbl o e.data.toNat else some v.ser

theorem SameShared.refl (v : Vars) : SameShared v v := ⟨rfl, rfl⟩

theorem SameShared.trans {v v' v'' : Vars} (h : SameShared v v') (h' : SameShared v' v'') :
    SameShared v v'' :=
  ⟨h'.battIcon.trans h.battIcon, h'.ser.trans h.ser⟩

theorem SameShared.handled {v v' v'' : Vars} (h : SameShared v v')
    (h' : Handled tbl o e v' v'') : Handled tbl o e v v'' :=
  ⟨h.battIcon ▸ h'.battIcon, h.ser ▸ h'.ser⟩

/-- An event that is neither a reading nor a line. -/
theorem Handled.of_same {v v' : Vars} (hvbatt : e.event ≠ eventVbatt)
    (hline : e.event ≠ eventSerialRecv) (h : SameShared v v') : Handled tbl o e v v' := by
  refine ⟨by rw [if_neg hvbatt, h.battIcon], ?_⟩
  rw [if_neg hline, h.ser]

/-- The receive half has what the parse leaves of a line. -/
theorem Handled.sameRx {v v' : Vars} (h : Handled tbl o e v v') :
    SameRx (if e.event = eventSerialRecv then v.ser.parsed e.data.toNat else v.ser) v'.ser := by
  have hser := h.ser
  by_cases hline : e.event = eventSerialRecv
  · rw [if_pos hline] at hser ⊢
    exact parseCmd_parsed hser.symm
  · rw [if_neg hline] at hser ⊢
    rw [Option.some.inj hser]
    exact .refl _

/-- A probe leaves them alone. -/
theorem SameShared.probe (p : Prop) [Decidable p] (w : World Vars) :
    SameShared w.rest (if p then w.probe.rest else w.rest) := by
  split <;> exact ⟨rfl, rfl⟩

theorem rfEventNotify_shared (event : UInt8) (data : UInt16) (w : World Vars) :
    SameShared w.rest (rfEventNotify event data w).2.rest := by
  obtain ⟨led, hrest⟩ := rfEventNotify_rest event data w
  have hprobe := SameShared.probe (event = eventAppStart) w
  exact hrest ▸ ⟨hprobe.battIcon, hprobe.ser⟩

theorem rfDebugNotify_shared (rv event : UInt8) (data : UInt16) (w : World Vars) :
    SameShared w.rest (rfDebugNotify rv event data w).2.rest := by
  obtain ⟨regAddr, hrest⟩ := rfDebugNotify_rest rv event data w
  have hprobe := SameShared.probe (event = eventAppStart) w
  exact hrest ▸ ⟨hprobe.battIcon, hprobe.ser⟩

/-- A key leaves them alone, too. -/
theorem uiKeyHandler_shared {k : UInt8} (h : uiKeyHandler sys k w = some w') :
    SameShared w.rest w'.rest := by
  refine uiKeyHandler_keeps (SameShared w.rest) ?_ ?_ (.refl _) h
  · intro cb event data w₁ hevent hw
    obtain ⟨led, regAddr, hrest⟩ := firmware_call_rest hevent cb data w₁
    have hprobe := hw.trans (SameShared.probe
      (event = eventAppStart ∧ (cb = rfEventNotifyCb ∨ cb = rfDebugNotifyCb)) w₁)
    exact hrest ▸ ⟨hprobe.battIcon, hprobe.ser⟩
  · intro text f _ _ hw
    obtain ⟨regs, pshold, bootloader, hrest⟩ := execute_rest f _
    exact hrest ▸ ⟨hw.battIcon, hw.ser⟩

theorem uiEventNotify_handled
    (h : uiEventNotify tbl o (uiKeyHandler sys) e.event e.data w = some (1, w')) :
    Handled tbl o e w.rest w'.rest := by
  by_cases hkey : e.event = eventKeypress
  · rw [uiEventNotify, if_pos hkey] at h
    obtain ⟨w'', hmenu, heq⟩ := Option.map_eq_some_iff.mp h
    cases heq
    exact .of_same (by rw [hkey]; decide) (by rw [hkey]; decide) (uiKeyHandler_shared hmenu)
  by_cases hvbatt : e.event = eventVbatt
  · rw [uiEventNotify, if_neg hkey, if_neg (by rw [hvbatt]; decide),
      if_neg (by rw [hvbatt]; decide), if_neg (by rw [hvbatt]; decide), if_pos hvbatt] at h
    cases h
    refine ⟨(if_pos hvbatt).symm, ?_⟩
    rw [if_neg (by rw [hvbatt]; decide)]
    rfl
  by_cases hline : e.event = eventSerialRecv
  · rw [uiEventNotify_line hline] at h
    obtain ⟨w'', hparse, heq⟩ := Option.map_eq_some_iff.mp h
    cases heq
    obtain ⟨ser, hser, rfl⟩ := parseLine_eq hparse
    exact ⟨by rw [if_neg hvbatt]; rfl, by rw [if_pos hline, hser]; rfl⟩
  · refine .of_same hvbatt hline ?_
    rw [uiEventNotify, if_neg hkey, if_neg hvbatt, if_neg hline] at h
    split at h
    · cases h
      exact .refl _
    split at h
    · cases h
      exact ⟨rfl, rfl⟩
    split at h
    · cases h
      exact ⟨rfl, rfl⟩
    · cases h
      exact .refl _

/-! ### Rounds -/

/-- A round in which no application runs, one that ends with the application, and one in which the
    application passes the event on. -/
inductive RoundParts (sys : UInt16) (tbl : CmdTable) (o : PostInc) (rv : UInt8) (e : EventT)
    (w w' : World Vars) : List Offer → Prop where
  | base (call : uiEventNotify tbl o (uiKeyHandler sys) e.event e.data w = some (1, w')) :
      RoundParts sys tbl o rv e w w' [⟨uiEventNotifyCb, e.event, e.data⟩]
  | consumed {cb : EventNotifyCb} {rv' : UInt8} (app : entered (firmware sys) w = [cb])
      (call : callback tbl o (uiKeyHandler sys) rv cb e.event e.data w = some (rv', w'))
      (ne : rv' ≠ 0) : RoundParts sys tbl o rv e w w' [⟨cb, e.event, e.data⟩]
  | passed {cb : EventNotifyCb} {w₁ : World Vars} (app : entered (firmware sys) w = [cb])
      (call : callback tbl o (uiKeyHandler sys) rv cb e.event e.data w = some (0, w₁))
      (base : uiEventNotify tbl o (uiKeyHandler sys) e.event e.data w₁ = some (1, w')) :
      RoundParts sys tbl o rv e w w' [⟨cb, e.event, e.data⟩, ⟨uiEventNotifyCb, e.event, e.data⟩]

/-- The base handler, offered the event at the end of the list. -/
theorem offerTo_base {r : World Vars × List EventNotifyCb}
    (h : offerTo (handlerCall sys tbl o rv e) [uiEventNotifyCb] w = some r) :
    uiEventNotify tbl o (uiKeyHandler sys) e.event e.data w = some (1, r.1) ∧
      r.2 = [uiEventNotifyCb] := by
  cases hcall : callback tbl o (uiKeyHandler sys) rv uiEventNotifyCb e.event e.data w with
  | none =>
      have hnone : handlerCall sys tbl o rv e uiEventNotifyCb w = none := by
        rw [handlerCall, hcall]
        rfl
      rw [offerTo, hnone] at h
      cases h
  | some r' =>
      obtain ⟨rv', w₁⟩ := r'
      obtain rfl : rv' = 1 := by
        rcases callback_cases hcall with ⟨-, hone, -⟩ | ⟨hcb, -⟩ | ⟨hcb, -⟩
        · exact hone
        · exact absurd hcb (by decide)
        · exact absurd hcb (by decide)
      have hcons : handlerCall sys tbl o rv e uiEventNotifyCb w = some (true, w₁) := by
        rw [handlerCall, hcall]
        rfl
      rw [offerTo_consumed hcons] at h
      cases h
      exact ⟨hcall, rfl⟩

theorem UiInv.round_parts (h : UiInv sys w)
    (hround : dispatchEvent sys tbl o rv e w = some (w', offers)) :
    RoundParts sys tbl o rv e w w' offers := by
  rw [h.dispatchEvent_eq] at hround
  obtain ⟨r, hoffer, heq⟩ := Option.map_eq_some_iff.mp hround
  obtain ⟨rfl, rfl⟩ := Prod.mk.inj heq
  have happ : entered (firmware sys) w = [] ∨ ∃ cb, entered (firmware sys) w = [cb] := by
    rcases h.apps with hnil | hrf | hdebug
    · exact .inl hnil
    · exact .inr ⟨_, hrf⟩
    · exact .inr ⟨_, hdebug⟩
  rcases happ with hnil | ⟨cb, happ⟩
  · rw [hnil, List.nil_append] at hoffer
    obtain ⟨hbase, hcbs⟩ := offerTo_base hoffer
    rw [hcbs]
    exact .base hbase
  · rw [happ, List.singleton_append] at hoffer
    cases hcall : callback tbl o (uiKeyHandler sys) rv cb e.event e.data w with
    | none =>
        have hnone : handlerCall sys tbl o rv e cb w = none := by rw [handlerCall, hcall]; rfl
        rw [offerTo, hnone] at hoffer
        cases hoffer
    | some r' =>
        obtain ⟨rv', w₁⟩ := r'
        by_cases hrv : rv' = 0
        · subst hrv
          have hpass : handlerCall sys tbl o rv e cb w = some (false, w₁) := by
            rw [handlerCall, hcall]
            rfl
          rw [offerTo_passed hpass] at hoffer
          obtain ⟨r₁, hrest, rfl⟩ := Option.map_eq_some_iff.mp hoffer
          obtain ⟨hbase, hcbs⟩ := offerTo_base hrest
          simp only [hcbs, List.map_cons, List.map_nil]
          exact .passed happ hcall hbase
        · have hcons : handlerCall sys tbl o rv e cb w = some (true, w₁) := by
            rw [handlerCall, hcall, Option.map_some, decide_eq_true hrv]
          rw [offerTo_consumed hcons] at hoffer
          cases hoffer
          exact .consumed happ hcall hrv

/-- An application consumes nothing but keys, and shares nothing with the interrupts. -/
theorem UiInv.app_call (h : UiInv sys w) {cb : EventNotifyCb} {rv' : UInt8}
    (happ : entered (firmware sys) w = [cb])
    (hcall : callback tbl o (uiKeyHandler sys) rv cb e.event e.data w = some (rv', w'))
    (hstart : e.event ≠ eventAppStart) (hstop : e.event ≠ eventAppStop) :
    cb ≠ uiEventNotifyCb ∧ SameShared w.rest w'.rest ∧ (rv' ≠ 0 → e.event = eventKeypress) := by
  rcases h.apps with heq | heq | heq
  · cases heq.symm.trans happ
  · cases heq.symm.trans happ
    have hrf : rfEventNotify e.event e.data w = (rv', w') := Option.some.inj hcall
    have hshared := rfEventNotify_shared e.event e.data w
    have hzero : (rfEventNotify e.event e.data w).1 = 0 := by
      rw [rfEventNotify, if_neg hstart, if_neg hstop]
      split
      · rfl
      split
      · rfl
      split
      · rfl
      split
      · rfl
      split <;> rfl
    rw [hrf] at hshared hzero
    exact ⟨by decide, hshared, fun hne => absurd hzero hne⟩
  · cases heq.symm.trans happ
    have hdebug : rfDebugNotify rv e.event e.data w = (rv', w') := Option.some.inj hcall
    have hshared := rfDebugNotify_shared rv e.event e.data w
    rw [hdebug] at hshared
    refine ⟨by decide, hshared, fun hne => ?_⟩
    by_contra hkey
    rw [rfDebugNotify, if_neg hstart, if_neg hstop, if_neg hkey] at hdebug
    exact hne (congrArg Prod.fst hdebug).symm

/-- Whichever application runs, a round leaves what the base handler makes of the event. -/
theorem UiInv.round_shared (h : UiInv sys w) (hstart : e.event ≠ eventAppStart)
    (hstop : e.event ≠ eventAppStop)
    (hround : dispatchEvent sys tbl o rv e w = some (w', offers)) :
    Handled tbl o e w.rest w'.rest := by
  cases h.round_parts hround with
  | base call => exact uiEventNotify_handled call
  | consumed app call ne =>
      obtain ⟨-, hshared, hkey⟩ := h.app_call app call hstart hstop
      exact .of_same (by rw [hkey ne]; decide) (by rw [hkey ne]; decide) hshared
  | passed app call base =>
      obtain ⟨-, hshared, -⟩ := h.app_call app call hstart hstop
      exact hshared.handled (uiEventNotify_handled base)

/-- A round that is about a line returns if the parse of the line does. -/
theorem UiInv.dispatch_line (h : UiInv sys w) (hline : e.event = eventSerialRecv) :
    dispatchEvent sys tbl o rv e w = none ↔ ¬ Parses tbl (w.rest.ser.rxQ e.data.toNat) := by
  have hbase : ∀ w₁ : World Vars, w₁.rest.ser = w.rest.ser →
      (offerTo (handlerCall sys tbl o rv e) [uiEventNotifyCb] w₁ = none ↔
        ¬ Parses tbl (w.rest.ser.rxQ e.data.toNat)) := by
    intro w₁ hser
    have hcall : handlerCall sys tbl o rv e uiEventNotifyCb w₁ =
        (parseLine tbl o e.data w₁).map fun w' => (true, w') := by
      show (uiEventNotify tbl o (uiKeyHandler sys) e.event e.data w₁).map _ = _
      rw [uiEventNotify_line hline, Option.map_map]
      rfl
    rw [← hser, ← parseCmd_isSome_iff (o := o), Option.not_isSome_iff_eq_none, offerTo, hcall,
      parseLine]
    cases w₁.rest.ser.parseCmd tbl o e.data.toNat <;> simp
  have hpass : ∀ cb w₁, handlerCall sys tbl o rv e cb w = some (false, w₁) →
      w₁.rest.ser = w.rest.ser → (offerTo (handlerCall sys tbl o rv e) [cb, uiEventNotifyCb] w =
        none ↔ ¬ Parses tbl (w.rest.ser.rxQ e.data.toNat)) := by
    intro cb w₁ hcall hser
    rw [offerTo_passed hcall, Option.map_eq_none_iff]
    exact hbase w₁ hser
  rw [h.dispatchEvent_eq, Option.map_eq_none_iff]
  rcases h.apps with heq | heq | heq
  · rw [heq]
    exact hbase w rfl
  · rw [heq]
    refine hpass _ (rfEventNotify e.event e.data w).2 ?_
      (rfEventNotify_shared e.event e.data w).ser
    show some (decide ((rfEventNotify e.event e.data w).1 ≠ 0), _) = _
    rw [hline]
    rfl
  · rw [heq]
    refine hpass _ (rfDebugNotify rv e.event e.data w).2 ?_
      (rfDebugNotify_shared rv e.event e.data w).ser
    show some (decide ((rfDebugNotify rv e.event e.data w).1 ≠ 0), _) = _
    rw [hline]
    rfl

end Rounds

end RfPirate
