/-
Module: RfPirate.Proofs.AdcChannel
Layer: Proofs
Purpose: Which channel a result of the converter is taken for. `state` has to name the channel of
  the conversion that runs. `vbatt_read_cb` sets it also when the conversion of a key channel runs,
  and the result of that conversion is then taken for the battery voltage. Without that, over every
  interleaving of the timer callbacks and completions, each result is taken for what it is.
Main exports: FromChannel, ResultsRight, AdcLaw, AdcOk, AdcInv, adc_channels, adc_channels_fails
-/
import RfPirate.Core.Keypad

namespace RfPirate

open Lib Lib.Machine

/-- The event is one that results of the sampled channel stand for. -/
def FromChannel (o : AdcObs) : Prop :=
  (o.event.event = eventVbatt → o.channel = 7) ∧
  (o.event.event = eventKeypress →
    (o.event.data = keyDown.toUInt16 ∨ o.event.data = keyRight.toUInt16 → o.channel = 5) ∧
    (o.event.data = keySelect.toUInt16 ∨ o.event.data = keyUp.toUInt16 ∨
      o.event.data = keyLeft.toUInt16 → o.channel = 6))

instance (o : AdcObs) : Decidable (FromChannel o) :=
  inferInstanceAs (Decidable ((_ → _) ∧ (_ → (_ → _) ∧ (_ → _))))

/-- Whatever the running conversion results in, the events posted for it are from its channel. -/
def ResultsRight (s : Keypad) : Prop :=
  ∀ val s' out, adcStep s (.complete val) = some (s', out) → ∀ o ∈ out, FromChannel o

/-- What one step has to satisfy: the events it posts are from the sampled channel, and so will be
    those of the conversion that runs after it. -/
def AdcLaw (s : Keypad) (a : AdcAct) : Prop :=
  ∀ s' out, adcStep s a = some (s', out) → (∀ o ∈ out, FromChannel o) ∧ ResultsRight s'

/-- `vbatt_read_cb` is called only when no conversion of another channel than 7 runs. -/
def AdcOk (s : Keypad) : AdcAct → Prop
  | .vbattTick => ∀ channel, s.conversion = some channel → channel = 7
  | _ => True

instance AdcOk.decidable (s : Keypad) : ∀ a, Decidable (AdcOk s a)
  | .vbattTick => inferInstanceAs (Decidable (∀ channel ∈ s.conversion, channel = 7))
  | .keypadTick => instDecidableTrue
  | .complete _ => instDecidableTrue

/-- The state stands for the channel. -/
inductive Reads : UInt8 → UInt8 → Prop where
  | adc5 : Reads readAdc5 5
  | adc6 : Reads readAdc6 6
  | vbatt : Reads readVbatt 7

/-- `state` names the channel of the running conversion; between conversions it names a key
    channel, the next one to read. -/
def AdcInv (s : Keypad) : Prop :=
  match s.conversion with
  | none => s.state = readAdc5 ∨ s.state = readAdc6
  | some channel => Reads s.state channel

/-! ### The parts of a step -/

theorem selected_channel (admux channel : UInt8) (h : channel &&& 0x1f = channel) :
    ((admux &&& ~~~0x1f) ||| channel) &&& 0x1f = channel := by
  have hdist : ((admux &&& ~~~0x1f) ||| channel) &&& 0x1f =
      (admux &&& ~~~0x1f &&& 0x1f) ||| (channel &&& 0x1f) :=
    UInt8.toBitVec_inj.1 BitVec.and_or_distrib_right
  rw [hdist, UInt8.and_assoc, UInt8.not_and_self, UInt8.and_zero, UInt8.zero_or, h]

theorem start_idle {s : Keypad} (hidle : s.conversion = none) (channel : UInt8)
    (h : channel &&& 0x1f = channel) : (s.select channel).start.conversion = some channel := by
  simp [Keypad.start, Keypad.select, hidle, selected_channel s.admux channel h]

theorem start_busy {s : Keypad} {running : UInt8} (hbusy : s.conversion = some running)
    (channel : UInt8) : (s.select channel).start.conversion = some running := by
  simp [Keypad.start, Keypad.select, hbusy]

theorem start_state (s : Keypad) (channel : UInt8) : (s.select channel).start.state = s.state := by
  unfold Keypad.start
  split <;> rfl

theorem keypadTimetickCb_inv {s : Keypad} (h : AdcInv s) : AdcInv (keypadTimetickCb s) := by
  unfold AdcInv at h ⊢
  cases hconv : s.conversion with
  | none =>
      simp only [hconv] at h
      rcases h with h5 | h6
      · have hstart := start_idle hconv 5 rfl
        simp only [keypadTimetickCb, h5, if_true, hstart, start_state]
        exact .adc5
      · have hstart := start_idle hconv 6 rfl
        have hne : ¬ readAdc6 = readAdc5 := by decide
        simp only [keypadTimetickCb, h6, if_neg hne, hstart, start_state]
        exact .adc6
  | some channel =>
      simp only [hconv] at h
      simp only [keypadTimetickCb, start_busy hconv, start_state]
      exact h

/-- The battery callback keeps the invariant when it starts the conversion or when one of channel 7
    runs already. -/
theorem vbattReadCb_inv {s : Keypad} (hok : AdcOk s .vbattTick) : AdcInv (vbattReadCb s) := by
  unfold AdcInv vbattReadCb
  cases hconv : s.conversion with
  | none =>
      simp only [start_idle hconv 7 rfl]
      exact .vbatt
  | some channel =>
      have h7 : channel = 7 := hok channel hconv
      subst h7
      simp only [start_busy hconv]
      exact .vbatt

/-! ### Results -/

theorem fromChannel_keycode5 (val : UInt8) (h : keycode5 val ≠ 0) :
    FromChannel ⟨5, ⟨eventKeypress, (keycode5 val).toUInt16⟩⟩ := by
  unfold keycode5 at h ⊢
  split
  · decide
  · split
    · decide
    · simp_all

theorem fromChannel_keycode6 (val : UInt8) (h : keycode6 val ≠ 0) :
    FromChannel ⟨6, ⟨eventKeypress, (keycode6 val).toUInt16⟩⟩ := by
  unfold keycode6 at h ⊢
  split
  · decide
  · split
    · decide
    · split
      · decide
      · simp_all

theorem fromChannel_vbatt (data : UInt16) : FromChannel ⟨7, ⟨eventVbatt, data⟩⟩ :=
  ⟨fun _ => rfl, fun h => absurd h (show ¬ eventVbatt = eventKeypress by decide)⟩

theorem mem_produce {s : Keypad} {keycode : UInt8} {events : List EventT} {e : EventT}
    (h : e ∈ (s.produce keycode events).2) :
    e ∈ events ∨ keycode ≠ 0 ∧ e = ⟨eventKeypress, keycode.toUInt16⟩ := by
  by_cases hkey : keycode = 0
  · left
    simpa [Keypad.produce, hkey] using h
  · simp only [Keypad.produce, ne_eq, hkey, not_false_eq_true, if_true, List.mem_append,
      List.mem_singleton] at h
    rcases h with hold | hnew
    · exact Or.inl hold
    · exact Or.inr ⟨hkey, hnew⟩

/-- The interrupt, when `state` names the channel of the finished conversion. -/
theorem adcIsr_spec {s : Keypad} {channel : UInt8} (hidle : s.conversion = none)
    (hreads : Reads s.state channel) (val : UInt8) :
    AdcInv (adcIsr s val).1 ∧ ∀ e ∈ (adcIsr s val).2, FromChannel ⟨channel, e⟩ := by
  generalize hstate : s.state = state at hreads
  cases hreads with
  | adc5 =>
      have hisr : adcIsr s val = { s with state := readAdc6 }.produce (keycode5 val) [] := by
        simp [adcIsr, hstate]
      rw [hisr]
      refine ⟨?_, fun e he => ?_⟩
      · simp [AdcInv, Keypad.produce, hidle]
      · rcases mem_produce he with hnil | ⟨hkey, rfl⟩
        · exact absurd hnil List.not_mem_nil
        · exact fromChannel_keycode5 val hkey
  | adc6 =>
      have hne : ¬ readAdc6 = readAdc5 := by decide
      have hisr : adcIsr s val = { s with state := readAdc5 }.produce (keycode6 val) [] := by
        simp [adcIsr, hstate, hne]
      rw [hisr]
      refine ⟨?_, fun e he => ?_⟩
      · simp [AdcInv, Keypad.produce, hidle]
      · rcases mem_produce he with hnil | ⟨hkey, rfl⟩
        · exact absurd hnil List.not_mem_nil
        · exact fromChannel_keycode6 val hkey
  | vbatt =>
      have hne5 : ¬ readVbatt = readAdc5 := by decide
      have hne6 : ¬ readVbatt = readAdc6 := by decide
      by_cases hval : val = 0xff
      · -- the read is tried again
        have hisr : adcIsr s val = (vbattReadCb s).produce 0 [] := by
          simp [adcIsr, hstate, hne5, hne6, hval]
        rw [hisr]
        refine ⟨?_, fun e he => ?_⟩
        · have hidle' : AdcOk s .vbattTick := fun channel h => absurd (hidle.symm.trans h) (by simp)
          exact vbattReadCb_inv hidle'
        · rcases mem_produce he with hnil | ⟨hkey, -⟩
          · exact absurd hnil List.not_mem_nil
          · exact absurd rfl hkey
      · have hisr : adcIsr s val =
            { s with state := readAdc5 }.produce 0 [⟨eventVbatt, val.toUInt16⟩] := by
          simp [adcIsr, hstate, hne5, hne6, hval]
        rw [hisr]
        refine ⟨?_, fun e he => ?_⟩
        · simp [AdcInv, Keypad.produce, hidle]
        · rcases mem_produce he with hevent | ⟨hkey, -⟩
          · rw [List.mem_singleton.mp hevent]
            exact fromChannel_vbatt _
          · exact absurd rfl hkey

/-- The end of the conversion that runs. -/
theorem complete_spec {s s' : Keypad} {val : UInt8} {out : List AdcObs} (h : AdcInv s)
    (hstep : adcStep s (.complete val) = some (s', out)) :
    AdcInv s' ∧ ∀ o ∈ out, FromChannel o := by
  unfold AdcInv at h
  cases hconv : s.conversion with
  | none => simp [adcStep, hconv] at hstep
  | some channel =>
      simp only [hconv] at h
      simp only [adcStep, hconv, Option.some.injEq, Prod.mk.injEq] at hstep
      obtain ⟨rfl, rfl⟩ := hstep
      have hreads : Reads ({ s with conversion := none } : Keypad).state channel := h
      obtain ⟨hinv, hevents⟩ := adcIsr_spec rfl hreads val
      refine ⟨hinv, fun o ho => ?_⟩
      obtain ⟨e, he, rfl⟩ := List.mem_map.mp ho
      exact hevents e he

theorem AdcInv.resultsRight {s : Keypad} (h : AdcInv s) : ResultsRight s :=
  fun _ _ _ hstep => (complete_spec h hstep).2

/-- When the battery callback is called while another channel is converted, the result of that
    conversion is posted as a voltage. -/
theorem vbattReadCb_wrong {s : Keypad} {channel : UInt8} (hconv : s.conversion = some channel)
    (hchannel : channel ≠ 7) : ¬ ResultsRight (vbattReadCb s) := by
  intro h
  have hconv' : (vbattReadCb s).conversion = some channel := start_busy hconv 7
  have hne5 : ¬ readVbatt = readAdc5 := by decide
  have hne6 : ¬ readVbatt = readAdc6 := by decide
  have hne : ¬ (0 : UInt8) = 0xff := by decide
  have hisr : ∃ s', adcStep (vbattReadCb s) (.complete 0) =
      some (s', [⟨channel, ⟨eventVbatt, 0⟩⟩]) := by
    simp only [adcStep, hconv']
    simp [adcIsr, vbattReadCb, hne5, hne6, hne, Keypad.produce]
  obtain ⟨s', hstep⟩ := hisr
  have hwrong := h 0 s' _ hstep _ List.mem_cons_self
  exact hchannel (hwrong.1 rfl)

/-! ### Runs -/

theorem adcStep_inv {s s' : Keypad} {a : AdcAct} {out : List AdcObs} (h : AdcInv s)
    (hok : AdcOk s a) (hstep : adcStep s a = some (s', out)) :
    AdcInv s' ∧ ∀ o ∈ out, FromChannel o := by
  cases a with
  | keypadTick =>
      simp only [adcStep, Option.some.injEq, Prod.mk.injEq] at hstep
      obtain ⟨rfl, rfl⟩ := hstep
      exact ⟨keypadTimetickCb_inv h, fun o ho => absurd ho List.not_mem_nil⟩
  | vbattTick =>
      simp only [adcStep, Option.some.injEq, Prod.mk.injEq] at hstep
      obtain ⟨rfl, rfl⟩ := hstep
      exact ⟨vbattReadCb_inv hok, fun o ho => absurd ho List.not_mem_nil⟩
  | complete val => exact complete_spec h hstep

theorem adcLaw_iff {s : Keypad} (h : AdcInv s) (a : AdcAct) : AdcLaw s a ↔ AdcOk s a := by
  constructor
  · intro hlaw
    cases a with
    | keypadTick => trivial
    | complete val => trivial
    | vbattTick =>
        intro channel hconv
        by_contra hchannel
        exact vbattReadCb_wrong hconv hchannel (hlaw _ _ rfl).2
  · intro hok s' out hstep
    obtain ⟨hinv, hout⟩ := adcStep_inv h hok hstep
    exact ⟨hout, hinv.resultsRight⟩

theorem adcInv_init : AdcInv keypadInit :=
  vbattReadCb_inv fun _ h => nomatch h

/-- A run obeys the law exactly if `vbatt_read_cb` is never called while the conversion of a key
    channel runs, and then every event of the run is from the channel that was sampled for it. -/
theorem adc_channels (acts : List AdcAct) :
    (Guarded adcStep AdcLaw keypadInit acts ↔ Guarded adcStep AdcOk keypadInit acts) ∧
    (Guarded adcStep AdcOk keypadInit acts →
      ∀ s out, run adcStep keypadInit acts = some (s, out) → ∀ o ∈ out, FromChannel o) := by
  constructor
  · exact guarded_iff (fun s a h => adcLaw_iff h a)
      (fun s a s' out h hok hstep => (adcStep_inv h hok hstep).1) adcInv_init
  · intro hok s out hrun
    have hkeeps : ∀ s₁ out₁ a s₂ out₂, (AdcInv s₁ ∧ ∀ o ∈ out₁, FromChannel o) → AdcOk s₁ a →
        adcStep s₁ a = some (s₂, out₂) → AdcInv s₂ ∧ ∀ o ∈ out₁ ++ out₂, FromChannel o := by
      rintro s₁ out₁ a s₂ out₂ ⟨h, hout⟩ hok₁ hstep
      obtain ⟨h₂, hout₂⟩ := adcStep_inv h hok₁ hstep
      refine ⟨h₂, fun o ho => ?_⟩
      rcases List.mem_append.mp ho with hold | hnew
      · exact hout o hold
      · exact hout₂ o hnew
    have hinit : AdcInv keypadInit ∧ ∀ o ∈ ([] : List AdcObs), FromChannel o :=
      ⟨adcInv_init, fun o ho => absurd ho List.not_mem_nil⟩
    exact (run_guarded_induction AdcOk hkeeps hinit hok hrun).2

/-- The battery callback comes while channel 7 is converted, then a key, then the callback again
    with nothing running. -/
theorem adc_channels_key_between :
    ∀ o ∈ [AdcObs.mk 7 ⟨eventVbatt, 200⟩, ⟨5, ⟨eventKeypress, 0x81⟩⟩, ⟨7, ⟨eventVbatt, 190⟩⟩],
      FromChannel o :=
  (adc_channels [.vbattTick, .complete 200, .keypadTick, .complete 10, .vbattTick,
    .complete 190]).2 (by decide +kernel) _ _ rfl

/-- The battery callback runs right after the keypad callback, as when both are due in one tick: the
    result of channel 5 is posted as the battery voltage. -/
theorem adc_channels_fails :
    ¬ ∀ s out,
      run adcStep keypadInit [.complete 200, .keypadTick, .vbattTick, .complete 10] =
        some (s, out) → ∀ o ∈ out, FromChannel o := by
  intro h
  have hevents := h _ _ rfl ⟨5, ⟨eventVbatt, 10⟩⟩ (by decide)
  revert hevents
  decide

end RfPirate
