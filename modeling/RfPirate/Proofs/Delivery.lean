/-
Module: RfPirate.Proofs.Delivery
Layer: Proofs
Purpose: Delivery survives callbacks that change the handler list under the traversal that called
  them. Since `get_node` takes the lowest free node, the handlers fill the pool from the bottom, and
  a traversal walks down the pool: a place the running callback freed and filled again keeps the
  same `next`.
Main exports: nodeAt, Packed, FrameOk, DeliveryInv, delivery_survives
-/
import RfPirate.Core.Delivery

namespace RfPirate

open Lib

/-! ### The pool is filled from the bottom -/

/-- The node that is the head of a list of `k` handlers. -/
def nodeAt : Nat → Option NodePtr
  | 0 => none
  | k + 1 => if h : k < maxHandlers then some ⟨k, h⟩ else none

theorem nodeAt_succ {k : Nat} (h : k < maxHandlers) : nodeAt (k + 1) = some ⟨k, h⟩ := dif_pos h

theorem nodeAt_val (n : NodePtr) : nodeAt (n.val + 1) = some n := nodeAt_succ n.isLt

/-- The `len` registered handlers are in the first `len` nodes, each above the one before it. -/
structure Packed (h : HandlerList) (len : Nat) : Prop where
  len_le : len ≤ maxHandlers
  used : ∀ n, (h.pool n).cb ≠ none ↔ n.val < len
  head : h.head = nodeAt len
  next : ∀ n, n.val < len → (h.pool n).next = nodeAt n.val

namespace Packed

variable {h : HandlerList} {len : Nat}

theorem init (h : HandlerList) : Packed (evtHandlerInit h) 0 :=
  ⟨Nat.zero_le _, fun _ => by simp [evtHandlerInit], rfl, fun _ hn => absurd hn (Nat.not_lt_zero _)⟩

theorem depthFrom_eq (hp : Packed h len) :
    ∀ {fuel k : Nat}, k ≤ len → k ≤ fuel → depthFrom h fuel (nodeAt k) = k
  | fuel, 0, _, _ => by cases fuel <;> rfl
  | fuel + 1, k + 1, hk, hfuel => by
      have hlen := hp.len_le
      have hk' : k < maxHandlers := by omega
      have hnext : (h.pool ⟨k, hk'⟩).next = nodeAt k := hp.next _ hk
      rw [nodeAt_succ hk', depthFrom, hnext,
        hp.depthFrom_eq (by omega) (Nat.le_of_succ_le_succ hfuel)]

/-- Depth in the list is height in the pool. -/
theorem depth_eq (hp : Packed h len) {k : Nat} (hk : k ≤ len) : depth h (nodeAt k) = k :=
  hp.depthFrom_eq hk (hk.trans hp.len_le)

theorem depth_node (hp : Packed h len) {n : NodePtr} (hn : n.val < len) :
    depth h (some n) = n.val + 1 := by
  rw [← nodeAt_val n]
  exact hp.depth_eq hn

theorem len_eq (hp : Packed h len) : h.len = len := by
  rw [HandlerList.len, hp.head]
  exact hp.depth_eq le_rfl

/-- `get_node` finds the lowest free node. -/
theorem getNode_eq (hp : Packed h len) : getNode h = nodeAt (len + 1) := by
  by_cases hroom : len < maxHandlers
  · rw [nodeAt_succ hroom, getNode, List.find?_eq_some_iff_getElem]
    have hfree : (h.pool ⟨len, hroom⟩).cb = none := by
      by_contra hne
      exact Nat.lt_irrefl _ ((hp.used _).mp hne)
    refine ⟨by simp [hfree], len, by simpa using hroom, by simp, fun j hj => ?_⟩
    have hused : (h.pool ⟨j, hj.trans hroom⟩).cb ≠ none := (hp.used _).mpr hj
    simpa [Option.isSome_iff_ne_none] using hused
  · have hfull : nodeAt (len + 1) = none := dif_neg hroom
    rw [hfull, getNode, List.find?_eq_none]
    intro n _
    have hused : (h.pool n).cb ≠ none := (hp.used n).mpr (by omega)
    simpa [Option.isNone_iff_eq_none] using hused

/-- Adding fills the lowest free node. -/
theorem add (hp : Packed h len) {n : NodePtr} (hn : n.val = len) (cb : EventNotifyCb) :
    Packed { pool := Function.update h.pool n ⟨some cb, h.head⟩, head := some n } (len + 1) := by
  constructor
  · omega
  · intro m
    by_cases hm : m = n
    · subst hm
      simp [hn]
    · have hne : m.val ≠ n.val := fun heq => hm (Fin.ext heq)
      simp only [Function.update_of_ne hm]
      rw [hp.used m]
      omega
  · rw [← hn]
    exact (nodeAt_val n).symm
  · intro m hlt
    by_cases hm : m = n
    · subst hm
      simp only [Function.update_self]
      rw [hp.head, hn]
    · have hne : m.val ≠ n.val := fun heq => hm (Fin.ext heq)
      simp only [Function.update_of_ne hm]
      exact hp.next m (by omega)

/-- Popping frees the highest used node. -/
theorem pop (hp : Packed h len) : Packed (evtHandlerPophandler h) (len - 1) := by
  cases len with
  | zero =>
      have hhead : h.head = none := hp.head
      simpa [evtHandlerPophandler, hhead] using hp
  | succ k =>
      have hk : k < maxHandlers := hp.len_le
      have hhead : h.head = some ⟨k, hk⟩ := hp.head.trans (nodeAt_succ hk)
      simp only [evtHandlerPophandler, hhead]
      constructor
      · exact Nat.le_of_lt hk
      · intro m
        by_cases hm : m = ⟨k, hk⟩
        · subst hm
          simp
        · have hne : m.val ≠ k := fun heq => hm (Fin.ext heq)
          simp only [Function.update_of_ne hm]
          rw [hp.used m]
          omega
      · exact hp.next ⟨k, hk⟩ (Nat.lt_succ_self k)
      · intro m hlt
        have hm : m ≠ ⟨k, hk⟩ := fun heq => by simp [heq] at hlt
        simp only [Function.update_of_ne hm]
        exact hp.next m (by omega)

end Packed

/-- Popping leaves every `next` as it is. -/
theorem pophandler_next (h : HandlerList) (n : NodePtr) :
    ((evtHandlerPophandler h).pool n).next = (h.pool n).next := by
  unfold evtHandlerPophandler
  split
  · rfl
  · rename_i m _
    by_cases hm : n = m
    · subst hm
      simp
    · simp only [Function.update_of_ne hm]

/-! ### One traversal -/

/-- A traversal with the handlers of the first `left` nodes still to visit, over a list of `len`. -/
structure FrameOk (h : HandlerList) (len : Nat) (stamp : NodePtr → Nat) (t : Traversal)
    (left : Nat) : Prop where
  left_le : left ≤ len
  calls_gt : ∀ d ∈ t.calls, left < d
  count : t.calls.length + left ≤ t.begun
  old : ∀ n, n.val < left → stamp n < t.since
  waiting : t.running = false → t.tmp = nodeAt left
  called : t.running = true → left < t.startLen ∧ t.startLen ≤ len + 1 ∧
    ∃ n, t.tmp = some n ∧ n.val = left ∧ (h.pool n).next = nodeAt left

namespace FrameOk

variable {h : HandlerList} {len left : Nat} {stamp : NodePtr → Nat} {t : Traversal}

/-- A push fills a node above all that are still to visit. -/
theorem add (ht : FrameOk h len stamp t left) (hp : Packed h len) {n : NodePtr}
    (hn : n.val = len) (cb : EventNotifyCb) (clock : Nat) :
    FrameOk { pool := Function.update h.pool n ⟨some cb, h.head⟩, head := some n } (len + 1)
      (Function.update stamp n clock) t left where
  left_le := Nat.le_succ_of_le ht.left_le
  calls_gt := ht.calls_gt
  count := ht.count
  old m hm := by
    have hle := ht.left_le
    have hne : m ≠ n := fun heq => by rw [heq, hn] at hm; omega
    rw [Function.update_of_ne hne]
    exact ht.old m hm
  waiting := ht.waiting
  called hrun := by
    obtain ⟨hlt, hstart, m, htmp, hm, hnext⟩ := ht.called hrun
    refine ⟨hlt, Nat.le_succ_of_le hstart, m, htmp, hm, ?_⟩
    by_cases heq : m = n
    · -- the node of the running callback was freed and is filled again, at the same height
      subst heq
      simp only [Function.update_self]
      rw [hp.head, ← hn, hm]
    · simp only [Function.update_of_ne heq]
      exact hnext

/-- A pop during an invocation keeps the handlers still to visit. -/
theorem pop (ht : FrameOk h len stamp t left) (hrun : t.running = true)
    (hshallow : t.startLen ≤ len - 1 + 1) :
    FrameOk (evtHandlerPophandler h) (len - 1) stamp t left where
  left_le := by
    have hlt := (ht.called hrun).1
    omega
  calls_gt := ht.calls_gt
  count := ht.count
  old := ht.old
  waiting := ht.waiting
  called _ := by
    obtain ⟨hlt, -, m, htmp, hm, hnext⟩ := ht.called hrun
    exact ⟨hlt, hshallow, m, htmp, hm, (pophandler_next h m).trans hnext⟩

/-- A traversal begins with all handlers to visit. -/
theorem enter (hp : Packed h len) {clock : Nat} (hold : ∀ n, n.val < len → stamp n < clock)
    (caller : Caller) :
    FrameOk h len stamp
      { caller := caller, tmp := h.head, running := false, begun := h.len, since := clock,
        startLen := 0, calls := [] } len where
  left_le := le_rfl
  calls_gt := by simp
  count := by simp [hp.len_eq]
  old := hold
  waiting _ := hp.head
  called hrun := by simp at hrun

/-- What the loop is about to call. -/
theorem next_call (ht : FrameOk h len stamp t left) (hrun : t.running = false) {n : NodePtr}
    (htmp : t.tmp = some n) : left = n.val + 1 := by
  have hnode := (ht.waiting hrun).symm.trans htmp
  cases left with
  | zero => cases hnode
  | succ k =>
      have hle := ht.left_le
      rw [nodeAt] at hnode
      split at hnode
      · cases hnode
        rfl
      · cases hnode

theorem call (ht : FrameOk h len stamp t left) (hp : Packed h len) (hrun : t.running = false)
    {n : NodePtr} (htmp : t.tmp = some n) :
    FrameOk h len stamp
      { t with
        tmp := some n, running := true, startLen := h.len,
        calls := depth h (some n) :: t.calls } n.val := by
  have hleft := ht.next_call hrun htmp
  have hle := ht.left_le
  have hn : n.val < len := by omega
  constructor
  · exact Nat.le_of_lt hn
  · intro d hd
    rw [hp.depth_node hn] at hd
    rcases List.mem_cons.mp hd with rfl | hd
    · exact Nat.lt_succ_self _
    · have := ht.calls_gt d hd
      omega
  · have hcount := ht.count
    simp only [List.length_cons]
    omega
  · intro m hm
    exact ht.old m (by omega)
  · simp
  · intro _
    rw [hp.len_eq]
    exact ⟨hn, Nat.le_succ _, n, rfl, rfl, hp.next n hn⟩

theorem ret (ht : FrameOk h len stamp t left) (hrun : t.running = true) {n : NodePtr}
    (htmp : t.tmp = some n) :
    FrameOk h len stamp { t with tmp := (h.pool n).next, running := false } left where
  left_le := ht.left_le
  calls_gt := ht.calls_gt
  count := ht.count
  old := ht.old
  waiting _ := by
    obtain ⟨-, -, m, hm, -, hnext⟩ := ht.called hrun
    have hmn : m = n := Option.some.inj (hm.symm.trans htmp)
    rw [← hmn]
    exact hnext
  called hrun := by simp at hrun

end FrameOk

/-! ### All traversals of the call stack -/

/-- The handlers are packed, every traversal has its handlers still to visit, and all but the
    innermost one have called a callback. -/
structure DeliveryInv (s : DeliveryState) (len : Nat) : Prop where
  packed : Packed s.handlers len
  pushed : ∀ n, n.val < len → s.stamp n < s.clock
  frames : ∀ t ∈ s.frames, ∃ left, FrameOk s.handlers len s.stamp t left
  outer : ∀ t ∈ s.frames.tail, t.running = true

namespace DeliveryInv

variable {s : DeliveryState} {len : Nat}

theorem zero : DeliveryInv .zero 0 where
  packed := .init .zero
  pushed _ hn := absurd hn (Nat.not_lt_zero _)
  frames := by simp [DeliveryState.zero]
  outer := by simp [DeliveryState.zero]

/-- When main or a callback runs, every traversal has called a callback. -/
theorem all_running (hi : DeliveryInv s len) (hopen : s.open = true) :
    ∀ t ∈ s.frames, t.running = true := by
  have houter := hi.outer
  unfold DeliveryState.open at hopen
  cases hf : s.frames with
  | nil => simp
  | cons t rest =>
      simp only [hf, List.tail_cons] at hopen houter
      simpa [hopen] using houter

theorem add (hi : DeliveryInv s len) (cb : Option EventNotifyCb) :
    ∃ len', DeliveryInv (s.add cb) len' := by
  cases cb with
  | none => exact ⟨len, hi⟩
  | some cb =>
      cases hnode : getNode s.handlers with
      | none =>
          refine ⟨len, ?_⟩
          simp only [DeliveryState.add, evtHandlerAddhandler, hnode]
          exact hi
      | some n =>
          have hn : n.val = len := by
            have hat := hi.packed.getNode_eq.symm.trans hnode
            rw [nodeAt] at hat
            split at hat <;> cases hat
            rfl
          refine ⟨len + 1, ?_⟩
          simp only [DeliveryState.add, evtHandlerAddhandler, hnode]
          constructor
          · exact hi.packed.add hn cb
          · intro m hm
            by_cases heq : m = n
            · subst heq
              simp
            · have hne : m.val ≠ n.val := fun h => heq (Fin.ext h)
              have hold := hi.pushed m (by omega)
              simp only [Function.update_of_ne heq]
              omega
          · intro t ht
            obtain ⟨left, hleft⟩ := hi.frames t ht
            exact ⟨left, hleft.add hi.packed hn cb s.clock⟩
          · exact hi.outer

theorem pop (hi : DeliveryInv s len) (hopen : s.open = true)
    (hshallow : Shallow { s with handlers := evtHandlerPophandler s.handlers }) :
    DeliveryInv { s with handlers := evtHandlerPophandler s.handlers } (len - 1) where
  packed := hi.packed.pop
  pushed n hn := hi.pushed n (by omega)
  frames t ht := by
    obtain ⟨left, hleft⟩ := hi.frames t ht
    have hrun := hi.all_running hopen t ht
    have hstart := hshallow t ht hrun
    simp only [hi.packed.pop.len_eq] at hstart
    exact ⟨left, hleft.pop hrun hstart⟩
  outer := hi.outer

theorem enter (hi : DeliveryInv s len) (hrun : ∀ t ∈ s.frames, t.running = true)
    (caller : Caller) : DeliveryInv (s.enter caller) len where
  packed := hi.packed
  pushed := hi.pushed
  frames t ht := by
    rcases List.mem_cons.mp ht with rfl | ht
    · exact ⟨len, .enter hi.packed hi.pushed caller⟩
    · exact hi.frames t ht
  outer := hrun

theorem leave (hi : DeliveryInv s len) {t : Traversal} {rest : List Traversal}
    (hf : s.frames = t :: rest) (caller : Caller) : DeliveryInv (s.leave caller rest) len := by
  have hframes : ∀ t' ∈ rest, ∃ left, FrameOk s.handlers len s.stamp t' left :=
    fun t' ht' => hi.frames t' (by simp [hf, ht'])
  have houter : ∀ t' ∈ rest.tail, t'.running = true :=
    fun t' ht' => hi.outer t' (by rw [hf]; exact List.mem_of_mem_tail ht')
  cases caller <;> exact ⟨hi.packed, hi.pushed, hframes, houter⟩

/-- A step that only changes the innermost traversal. -/
theorem top (hi : DeliveryInv s len) {t t' : Traversal} {rest : List Traversal}
    (hf : s.frames = t :: rest) {left : Nat} (ht : FrameOk s.handlers len s.stamp t' left) :
    DeliveryInv { s with frames := t' :: rest } len where
  packed := hi.packed
  pushed := hi.pushed
  frames u hu := by
    rcases List.mem_cons.mp hu with rfl | hu
    · exact ⟨left, ht⟩
    · exact hi.frames u (by simp [hf, hu])
  outer u hu := hi.outer u (by simpa [hf] using hu)

theorem loopStep (hi : DeliveryInv s len) {s₁ : DeliveryState} {o : List Offer}
    (hstep : loopStep s = some (s₁, o)) : DeliveryInv s₁ len := by
  unfold RfPirate.loopStep at hstep
  cases hf : s.frames with
  | nil =>
      simp only [hf] at hstep
      split at hstep
      · split at hstep <;> cases hstep
        · exact hi.enter (by simp [hf]) .dispatch
        · exact ⟨hi.packed, hi.pushed, by simp, by simp⟩
      · cases hstep
  | cons t rest =>
      obtain ⟨left, hleft⟩ := hi.frames t (by simp [hf])
      simp only [hf] at hstep
      cases hrun : t.running with
      | true => simp [hrun] at hstep
      | false =>
          cases htmp : t.tmp with
          | none =>
              simp only [hrun, htmp] at hstep
              cases hstep
              exact hi.leave hf t.caller
          | some n =>
              cases hcb : (s.handlers.pool n).cb with
              | none => simp [hrun, htmp, hcb] at hstep
              | some cb =>
                  simp only [hrun, htmp, hcb] at hstep
                  cases hstep
                  exact hi.top hf (hleft.call hi.packed hrun htmp)

theorem returnStep (hi : DeliveryInv s len) {rv : UInt8} {s₁ : DeliveryState} {o : List Offer}
    (hstep : returnStep s rv = some (s₁, o)) : DeliveryInv s₁ len := by
  unfold RfPirate.returnStep at hstep
  cases hf : s.frames with
  | nil => simp [hf] at hstep
  | cons t rest =>
      obtain ⟨left, hleft⟩ := hi.frames t (by simp [hf])
      simp only [hf] at hstep
      cases hrun : t.running with
      | false => simp [hrun] at hstep
      | true =>
          cases htmp : t.tmp with
          | none => simp [hrun, htmp] at hstep
          | some n =>
              simp only [hrun, htmp, if_true] at hstep
              split at hstep <;> cases hstep
              · exact hi.leave hf t.caller
              · exact hi.top hf (hleft.ret hrun htmp)

/-- Every step that leaves the list deep enough keeps the invariant. -/
theorem step (hi : DeliveryInv s len) {act : DeliveryAct} (hok : KeepsShallow s act)
    {s₁ : DeliveryState} {o : List Offer} (hstep : deliveryStep s act = some (s₁, o)) :
    ∃ len', DeliveryInv s₁ len' := by
  have hshallow := hok s₁ o hstep
  cases act with
  | init =>
      simp only [deliveryStep] at hstep
      split at hstep <;> cases hstep
      rename_i hmain
      have hnil : s.frames = [] := by
        simp only [DeliveryState.inMain, Bool.and_eq_true, List.isEmpty_iff] at hmain
        exact hmain.1
      exact ⟨0, .init s.handlers, fun _ hn => absurd hn (Nat.not_lt_zero _), by simp [hnil],
        by simp [hnil]⟩
  | add cb =>
      simp only [deliveryStep] at hstep
      split at hstep <;> cases hstep
      exact hi.add cb
  | pop =>
      simp only [deliveryStep] at hstep
      split at hstep <;> cases hstep
      rename_i hopen
      exact ⟨len - 1, hi.pop hopen hshallow⟩
  | post event data =>
      cases hstep
      exact ⟨len, hi.packed, hi.pushed, hi.frames, hi.outer⟩
  | syncevent event data =>
      simp only [deliveryStep] at hstep
      split at hstep <;> cases hstep
      rename_i hopen
      exact ⟨len, hi.enter (hi.all_running hopen) _⟩
  | dispatch =>
      simp only [deliveryStep] at hstep
      split at hstep <;> cases hstep
      exact ⟨len, hi.packed, hi.pushed, hi.frames, hi.outer⟩
  | step => exact ⟨len, hi.loopStep hstep⟩
  | ret rv => exact ⟨len, hi.returnStep hstep⟩

/-- The next call is a good one. -/
theorem law (hi : DeliveryInv s len) (act : DeliveryAct) : DeliveryLaw s act := by
  rintro - t rest n hf hrun htmp
  obtain ⟨left, ht⟩ := hi.frames t (by simp [hf])
  have hleft := ht.next_call hrun htmp
  have hle := ht.left_le
  have hcount := ht.count
  have hn : n.val < len := by omega
  refine ⟨(hi.packed.used n).mpr hn, ?_, by omega, ht.old n (by omega)⟩
  intro d hd
  rw [hi.packed.depth_node hn, ← hleft]
  exact ht.calls_gt d hd

end DeliveryInv

/-- As long as no invocation leaves the list more than one entry shorter than it found it, every
    call of every traversal has a callback, goes to a handler deeper than all before it, is one of
    at most as many as were registered when the traversal began, and goes to a handler that was
    pushed before. -/
theorem delivery_survives {acts : List DeliveryAct}
    (hok : Machine.Guarded deliveryStep KeepsShallow .zero acts) :
    Machine.Guarded deliveryStep DeliveryLaw .zero acts := by
  have hlaw : ∀ s act, (∃ len, DeliveryInv s len) → KeepsShallow s act → DeliveryLaw s act :=
    fun _ act ⟨_, hi⟩ _ => hi.law act
  have hkeep : ∀ s act s₁ o₁, (∃ len, DeliveryInv s len) → KeepsShallow s act →
      deliveryStep s act = some (s₁, o₁) → ∃ len, DeliveryInv s₁ len :=
    fun _ _ _ _ ⟨_, hi⟩ hact hstep => hi.step hact hstep
  exact Machine.Guarded.imp hlaw hkeep ⟨0, .zero⟩ hok

/-- Two handlers and a posted event. The first handler pushes a third, offers it an event that the
    third answers by popping itself, and lets the next handler see the posted event; that one pops a
    handler and pushes another in its place. -/
theorem delivery_survives_push_pop :
    Machine.Guarded deliveryStep DeliveryLaw .zero
      [.add (some 7), .add (some 8), .post 16 0, .dispatch, .step, .step, .add (some 9),
        .syncevent 33 0, .step, .pop, .ret 0, .step, .ret 1, .ret 0, .step, .pop, .add (some 4),
        .ret 0, .step] :=
  delivery_survives (by decide)

end RfPirate
