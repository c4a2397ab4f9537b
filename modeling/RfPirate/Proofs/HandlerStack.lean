/-
Module: RfPirate.Proofs.HandlerStack
Layer: Proofs
Purpose: The registered handlers as a stack in the pool of nodes, what adding and popping do to it,
  and what a synchronous traversal keeps, whom it calls first and when it ends. Over every sequence
  of calls the list is a stack of bounded size.
Main exports: Registered, addhandler_registered, pophandler_registered, HandlerOp.onStack,
  handlerList_refines_stack, syncevent_keeps, syncevent_first, syncevent_consumed, syncevent_total
-/
import RfPirate.Core.EvtHandler
import RfPirate.Lib.Chain

namespace RfPirate

open Lib

/-! ### The handler list -/

/-- The registered handlers are `cbs`, in order from the head. -/
def Registered (h : HandlerList) (cbs : List EventNotifyCb) : Prop :=
  ∃ ns, PoolStack (fun n => (h.pool n).cb) (fun n => (h.pool n).next) h.head ns cbs

section Handlers

variable {h : HandlerList} {cb : EventNotifyCb} {cbs : List EventNotifyCb}

theorem registered_zero : Registered .zero [] := ⟨[], .empty fun _ => rfl⟩

theorem Registered.length_le (hr : Registered h cbs) : cbs.length ≤ maxHandlers := by
  obtain ⟨ns, hstack⟩ := hr
  simpa using hstack.length_le_card

/-- `get_node` finds a free node if there is one. -/
theorem getNode_eq_none_iff : getNode h = none ↔ ∀ n, (h.pool n).cb ≠ none := by
  simp [getNode]

theorem getNode_free {n : NodePtr} (hn : getNode h = some n) : (h.pool n).cb = none := by
  simpa using List.find?_some hn

theorem cb_update (pool : NodePtr → HandlerNode) (n : NodePtr) (node : HandlerNode) :
    (fun m => (Function.update pool n node m).cb) =
      Function.update (fun m => (pool m).cb) n node.cb :=
  Function.comp_update HandlerNode.cb pool n node

theorem next_update (pool : NodePtr → HandlerNode) (n : NodePtr) (node : HandlerNode) :
    (fun m => (Function.update pool n node m).next) =
      Function.update (fun m => (pool m).next) n node.next :=
  Function.comp_update HandlerNode.next pool n node

/-- A handler is pushed while fewer than `MAX_HANDLERS` are registered, and dropped otherwise. -/
theorem addhandler_registered (hr : Registered h cbs) (cb : EventNotifyCb) :
    Registered (evtHandlerAddhandler h (some cb))
      (if cbs.length < maxHandlers then cb :: cbs else cbs) := by
  obtain ⟨ns, hstack⟩ := hr
  cases hnode : getNode h with
  | none =>
      have hfull : cbs.length = maxHandlers := by
        simpa using hstack.length_eq_card (getNode_eq_none_iff.mp hnode)
      rw [if_neg (by omega)]
      simp only [evtHandlerAddhandler, hnode]
      exact ⟨ns, hstack⟩
  | some n =>
      have hroom : cbs.length < maxHandlers := by
        simpa using hstack.length_lt_card (getNode_free hnode)
      rw [if_pos hroom]
      simp only [evtHandlerAddhandler, hnode]
      refine ⟨n :: ns, ?_⟩
      rw [cb_update, next_update]
      exact hstack.push (getNode_free hnode) cb

/-- Popping removes the head. -/
theorem pophandler_registered (hr : Registered h (cb :: cbs)) :
    Registered (evtHandlerPophandler h) cbs := by
  obtain ⟨ns, hstack⟩ := hr
  obtain ⟨n, ns', hhead, -, hpop⟩ := hstack.pop
  simp only [evtHandlerPophandler, hhead]
  refine ⟨ns', ?_⟩
  rw [cb_update, next_update, Function.update_eq_self n fun m => (h.pool m).next]
  exact hpop

theorem Registered.head_ne_none (hr : Registered h cbs) (hne : cbs ≠ []) : h.head ≠ none := by
  obtain ⟨cb, rest, rfl⟩ := List.exists_cons_of_ne_nil hne
  obtain ⟨ns, hstack⟩ := hr
  obtain ⟨n, hhead, -⟩ := hstack.head_key
  simp [hhead]

/-- Popping from the empty list changes nothing. -/
theorem pophandler_nil (hr : Registered h []) : evtHandlerPophandler h = h := by
  obtain ⟨ns, hstack⟩ := hr
  simp [evtHandlerPophandler, hstack.head_eq_none]

end Handlers

/-! ### The list as a bounded stack -/

/-- The same calls on a stack of at most `MAX_HANDLERS` callbacks, top first. -/
def HandlerOp.onStack : HandlerOp → List EventNotifyCb → List EventNotifyCb
  | .init, _ => []
  | .add none, cbs => cbs
  | .add (some cb), cbs => if cbs.length < maxHandlers then cb :: cbs else cbs
  | .pop, cbs => cbs.tail

/-- One call does to the list what it does to the stack. -/
theorem HandlerOp.apply_registered {h : HandlerList} {cbs : List EventNotifyCb}
    (hr : Registered h cbs) (op : HandlerOp) : Registered (op.apply h) (op.onStack cbs) := by
  cases op with
  | init => exact registered_zero
  | add cb =>
      cases cb with
      | none => exact hr
      | some cb => exact addhandler_registered hr cb
  | pop =>
      cases cbs with
      | nil =>
          show Registered (evtHandlerPophandler h) []
          rw [pophandler_nil hr]
          exact hr
      | cons cb cbs => exact pophandler_registered hr

theorem registered_foldl (ops : List HandlerOp) {h : HandlerList} {cbs : List EventNotifyCb}
    (hr : Registered h cbs) :
    Registered (ops.foldl (fun h op => op.apply h) h)
      (ops.foldl (fun cbs op => op.onStack cbs) cbs) := by
  induction ops generalizing h cbs with
  | nil => exact hr
  | cons op ops ih => exact ih (HandlerOp.apply_registered hr op)

/-- After any calls from zeroed storage, following `next` from the head visits distinct nodes and
    ends in NULL, these nodes are the ones with a callback, and the callbacks are the stack. -/
theorem handlerList_refines_stack (ops : List HandlerOp) :
    let h := ops.foldl (fun h op => op.apply h) .zero
    ∃ ns, Chain (fun n => (h.pool n).next) h.head ns ∧ ns.Nodup ∧
      (∀ n, (h.pool n).cb ≠ none ↔ n ∈ ns) ∧
      ns.map (fun n => (h.pool n).cb) =
        (ops.foldl (fun cbs op => op.onStack cbs) []).map some := by
  intro h
  obtain ⟨ns, hstack⟩ := registered_foldl ops registered_zero
  refine ⟨ns, hstack.chain, hstack.nodup, fun n => ?_, hstack.keys⟩
  rw [Ne, hstack.free n, not_not]

/-! ### Synchronous traversal -/

section Syncevent

variable {W : Type*} {env : Callbacks W} {event : UInt8} {data : UInt16}

/-- A traversal keeps what every call keeps. -/
theorem syncLoop_keeps {inv : W → Prop}
    (hcall : ∀ cb w, inv w → inv (env.call cb event data w).2) :
    ∀ {fuel : Nat} {tmp : Option NodePtr} {w w' : W} {offers : List Offer},
      syncLoop env event data fuel tmp w = some (w', offers) → inv w → inv w'
  | fuel, none, w, w', offers, h, hw => by
      simp only [syncLoop, Option.some.injEq, Prod.mk.injEq] at h
      exact h.1 ▸ hw
  | 0, some n, w, w', offers, h, _ => by simp [syncLoop] at h
  | fuel + 1, some n, w, w', offers, h, hw => by
      simp only [syncLoop] at h
      cases hcb : ((env.handlers w).pool n).cb with
      | none => simp [hcb] at h
      | some cb =>
          simp only [hcb] at h
          have hw₁ := hcall cb w hw
          by_cases hrv : (env.call cb event data w).1 = 0
          · simp only [hrv, ne_eq, not_true_eq_false, if_false] at h
            split at h
            · simp at h
            · rename_i w₂ offers₂ hrest
              simp only [Option.some.injEq, Prod.mk.injEq] at h
              exact h.1 ▸ syncLoop_keeps hcall hrest hw₁
          · simp only [ne_eq, hrv, not_false_eq_true, if_true, Option.some.injEq,
              Prod.mk.injEq] at h
            exact h.1 ▸ hw₁

theorem syncevent_keeps {inv : W → Prop} {fuel : Nat} {w w' : W} {offers : List Offer}
    (hcall : ∀ cb w, inv w → inv (env.call cb event data w).2)
    (h : evtHandlerSyncevent env event data fuel w = some (w', offers)) (hw : inv w) : inv w' :=
  syncLoop_keeps hcall h hw

/-- The event is offered to the head first. -/
theorem syncevent_first {fuel : Nat} {w w' : W} {offers : List Offer} {cb : EventNotifyCb}
    {cbs : List EventNotifyCb} (hr : Registered (env.handlers w) (cb :: cbs))
    (h : evtHandlerSyncevent env event data fuel w = some (w', offers)) :
    offers.head? = some ⟨cb, event, data⟩ := by
  obtain ⟨ns, hstack⟩ := hr
  obtain ⟨n, hhead, hcb⟩ := hstack.head_key
  rw [evtHandlerSyncevent, hhead] at h
  cases fuel with
  | zero => simp [syncLoop] at h
  | succ fuel =>
      simp only [syncLoop, hcb] at h
      split at h
      · simp only [Option.some.injEq, Prod.mk.injEq] at h
        rw [← h.2]
        rfl
      · split at h
        · simp at h
        · simp only [Option.some.injEq, Prod.mk.injEq] at h
          rw [← h.2]
          rfl

/-- A head that consumes the event ends the traversal. -/
theorem syncevent_consumed {fuel : Nat} {w w' : W} {offers : List Offer} {cb : EventNotifyCb}
    {cbs : List EventNotifyCb} (hr : Registered (env.handlers w) (cb :: cbs))
    (hrv : (env.call cb event data w).1 ≠ 0)
    (h : evtHandlerSyncevent env event data fuel w = some (w', offers)) :
    w' = (env.call cb event data w).2 := by
  obtain ⟨ns, hstack⟩ := hr
  obtain ⟨n, hhead, hcb⟩ := hstack.head_key
  rw [evtHandlerSyncevent, hhead] at h
  cases fuel with
  | zero => simp [syncLoop] at h
  | succ fuel =>
      simp only [syncLoop, hcb, if_pos hrv, Option.some.injEq, Prod.mk.injEq] at h
      exact h.1.symm

/-- With callbacks that leave the list alone, a traversal with a step for each handler ends. -/
theorem syncLoop_total {h : HandlerList}
    (hcall : ∀ cb w, env.handlers w = h → env.handlers (env.call cb event data w).2 = h) :
    ∀ {ns : List NodePtr} {p : Option NodePtr} {fuel : Nat} {w : W}, env.handlers w = h →
      Chain (fun n => (h.pool n).next) p ns → (∀ n ∈ ns, (h.pool n).cb ≠ none) →
      ns.length ≤ fuel → (syncLoop env event data fuel p w).isSome
  | _, _, _, _, _, .nil, _, _ => by simp [syncLoop]
  | _, _, 0, _, _, .cons rest, _, hfuel => absurd hfuel (by simp)
  | _, _, fuel + 1, w, hw, @Chain.cons _ _ n ns rest, hused, hfuel => by
      obtain ⟨cb, hcb⟩ := Option.ne_none_iff_exists'.mp (hused n List.mem_cons_self)
      have hw₁ := hcall cb w hw
      have hrest := syncLoop_total hcall hw₁ rest
        (fun m hm => hused m (List.mem_cons_of_mem n hm)) (Nat.le_of_succ_le_succ hfuel)
      simp only [syncLoop, hw, hcb]
      split
      · rfl
      · rw [hw₁]
        obtain ⟨r, hr⟩ := Option.isSome_iff_exists.mp hrest
        simp [hr]

theorem syncevent_total {fuel : Nat} {w : W} {cbs : List EventNotifyCb}
    (hr : Registered (env.handlers w) cbs)
    (hcall : ∀ cb w, env.handlers (env.call cb event data w).2 = env.handlers w)
    (hfuel : maxHandlers ≤ fuel) : (evtHandlerSyncevent env event data fuel w).isSome := by
  have hlen := hr.length_le
  obtain ⟨ns, hstack⟩ := hr
  have hfit : ns.length ≤ fuel := by
    rw [hstack.length_eq]
    omega
  refine syncLoop_total (h := env.handlers w) (fun cb w₁ hw₁ => (hcall cb w₁).trans hw₁) rfl
    hstack.chain (fun n hn hnone => (hstack.free n).mp hnone hn) hfit

end Syncevent

end RfPirate
