/-
Module: RfPirate.Lib.Packets
Layer: Lib
Purpose: Messages that travel in packets. A reader takes one item at a time from the packet it holds
  and goes on to the next packet when there is nothing left in it: what it reads does not depend on
  where the packets are cut. A writer fills packets of one size and ends a message with a packet
  that is not full, so the other side finds where each message ends.
Main exports: fetch, fetchMany, fetchMany_flatten, Carries, Carries.fetchMany_eq, Writer,
  Writer.put, Writer.finish, IsMessage, Writer.finish_putAll, reassemble, reassemble_messages
-/
import Mathlib.Data.List.Basic

namespace Lib.Packets

universe u

variable {α : Type u}

/-! ### Reading -/

/-- The next item. The packet it was in is kept with what is left in it. When nothing more comes the
    item is `d`. -/
def fetch (d : α) : List (List α) → α × List (List α)
  | [] => (d, [])
  | [] :: ps => fetch d ps
  | (x :: xs) :: ps => (x, xs :: ps)

/-- The next `n` items. -/
def fetchMany (d : α) : Nat → List (List α) → List α × List (List α)
  | 0, ps => ([], ps)
  | n + 1, ps =>
      let r := fetchMany d n (fetch d ps).2
      ((fetch d ps).1 :: r.1, r.2)

section Reading

variable {d x : α} {m n : Nat} {xs : List α} {ps qs : List (List α)}

@[simp] theorem fetch_nil : fetch d ([] : List (List α)) = (d, []) := rfl

@[simp] theorem fetch_empty : fetch d ([] :: ps) = fetch d ps := rfl

@[simp] theorem fetch_cons : fetch d ((x :: xs) :: ps) = (x, xs :: ps) := rfl

@[simp] theorem fetchMany_zero : fetchMany d 0 ps = ([], ps) := rfl

theorem fetchMany_succ : fetchMany d (n + 1) ps =
    ((fetch d ps).1 :: (fetchMany d n (fetch d ps).2).1, (fetchMany d n (fetch d ps).2).2) := rfl

@[simp] theorem length_fetchMany : (fetchMany d n ps).1.length = n := by
  induction n generalizing ps with
  | zero => rfl
  | succ n ih => rw [fetchMany_succ, List.length_cons, ih]

theorem fetchMany_add : fetchMany d (m + n) ps =
    ((fetchMany d m ps).1 ++ (fetchMany d n (fetchMany d m ps).2).1,
      (fetchMany d n (fetchMany d m ps).2).2) := by
  induction m generalizing ps with
  | zero => simp
  | succ m ih => rw [Nat.succ_add, fetchMany_succ, fetchMany_succ, ih, List.cons_append]

theorem fetchMany_cons_inv (h : fetchMany d (n + 1) ps = (x :: xs, qs)) :
    (fetch d ps).1 = x ∧ fetchMany d n (fetch d ps).2 = (xs, qs) := by
  rw [fetchMany_succ] at h
  obtain ⟨hitems, hrest⟩ := Prod.mk.inj h
  obtain ⟨hhead, htail⟩ := List.cons.inj hitems
  exact ⟨hhead, Prod.ext htail hrest⟩

theorem fetchMany_append_inv {ys : List α}
    (h : fetchMany d (xs ++ ys).length ps = (xs ++ ys, qs)) :
    ∃ ps', fetchMany d xs.length ps = (xs, ps') ∧ fetchMany d ys.length ps' = (ys, qs) := by
  rw [List.length_append, fetchMany_add] at h
  obtain ⟨hitems, hrest⟩ := Prod.mk.inj h
  obtain ⟨hfirst, hsecond⟩ := List.append_inj hitems length_fetchMany
  exact ⟨_, Prod.ext hfirst rfl, Prod.ext hsecond hrest⟩

/-- One item is the first of the items that the packets hold together. -/
theorem fetch_flatten (ps : List (List α)) :
    (fetch d ps).1 = ps.flatten.headD d ∧ (fetch d ps).2.flatten = ps.flatten.tail := by
  induction ps with
  | nil => exact ⟨rfl, rfl⟩
  | cons p ps ih =>
      cases p with
      | nil => exact ih
      | cons x xs => exact ⟨rfl, rfl⟩

theorem fetch_run_out (hflat : ps.flatten = []) : (fetch d ps).2 = [] := by
  induction ps with
  | nil => rfl
  | cons p ps ih =>
      obtain ⟨rfl, hrest⟩ := List.append_eq_nil_iff.mp hflat
      exact ih hrest

/-- What is read are the items that the packets hold together, and `d` when they run out. -/
theorem fetchMany_flatten (n : Nat) (ps : List (List α)) :
    (fetchMany d n ps).1 = (ps.flatten ++ List.replicate n d).take n ∧
      (fetchMany d n ps).2.flatten = ps.flatten.drop n := by
  induction n generalizing ps with
  | zero => simp
  | succ n ih =>
      obtain ⟨hhead, htail⟩ := fetch_flatten (d := d) ps
      obtain ⟨hitems, hrest⟩ := ih (fetch d ps).2
      rw [fetchMany_succ, hitems, hrest, hhead, htail]
      cases hflat : ps.flatten with
      | nil => simp [List.replicate_succ, List.take_replicate]
      | cons x xs =>
          have hpad : (xs ++ List.replicate (n + 1) d).take n =
              (xs ++ List.replicate n d).take n := by
            rw [List.replicate_succ', ← List.append_assoc, List.take_append_of_le_length (by simp)]
          refine ⟨?_, rfl⟩
          rw [List.headD_cons, List.tail_cons, List.cons_append, List.take_succ_cons, hpad]

/-- Nothing is left of packets that ran out. -/
theorem fetchMany_run_out (hlen : ps.flatten.length < n) : (fetchMany d n ps).2 = [] := by
  induction n generalizing ps with
  | zero => exact absurd hlen (Nat.not_lt_zero _)
  | succ n ih =>
      rw [fetchMany_succ]
      by_cases hlast : (fetch d ps).2.flatten.length < n
      · exact ih hlast
      · have htail : (fetch d ps).2.flatten = ps.flatten.tail := (fetch_flatten ps).2
        have hnone : ps.flatten = [] ∧ n = 0 := by
          rw [htail, List.length_tail] at hlast
          exact ⟨List.eq_nil_of_length_eq_zero (by omega), by omega⟩
        rw [hnone.2, fetchMany_zero]
        exact fetch_run_out hnone.1

/-- The packets carry the message: cut anywhere, with empty packets between, and the last one may
    hold more than the end of it. -/
inductive Carries : List α → List (List α) → Prop
  | last (x : α) (xs junk : List α) : Carries (x :: xs) [x :: xs ++ junk]
  | more (p : List α) {xs : List α} {ps : List (List α)} : Carries xs ps →
      Carries (p ++ xs) (p :: ps)

theorem Carries.ne_nil (h : Carries xs ps) : xs ≠ [] := by
  induction h with
  | last x xs junk => exact List.cons_ne_nil x xs
  | more p _ ih => exact fun hnil => ih (List.append_eq_nil_iff.mp hnil).2

theorem Carries.packets_ne_nil (h : Carries xs ps) : ps ≠ [] := by
  cases h with
  | last x xs junk => exact List.cons_ne_nil _ _
  | more p _ => exact List.cons_ne_nil _ _

/-- Packets of one item each. -/
theorem carries_map_singleton (x : α) (xs : List α) :
    Carries (x :: xs) ((x :: xs).map fun y => [y]) := by
  induction xs generalizing x with
  | nil => exact .last x [] []
  | cons y ys ih => exact .more [x] (ih y)

/-- Items that the held packet has. -/
theorem fetchMany_held (xs junk : List α) (qs : List (List α)) :
    fetchMany d xs.length ((xs ++ junk) :: qs) = (xs, junk :: qs) := by
  induction xs with
  | nil => rfl
  | cons x xs ih => rw [List.length_cons, fetchMany_succ, List.cons_append, fetch_cons, ih]

theorem fetchMany_empty (hn : n ≠ 0) : fetchMany d n ([] :: ps) = fetchMany d n ps := by
  cases n with
  | zero => exact absurd rfl hn
  | succ n => rw [fetchMany_succ, fetch_empty, ← fetchMany_succ]

/-- Reading as many items as the message has gives the message, and the last packet is held. -/
theorem Carries.fetchMany_eq (h : Carries xs ps) (d : α) (qs : List (List α)) :
    ∃ junk, fetchMany d xs.length (ps ++ qs) = (xs, junk :: qs) := by
  induction h with
  | last x xs junk => exact ⟨junk, fetchMany_held (x :: xs) junk qs⟩
  | @more p xs ps hps ih =>
      obtain ⟨junk, hread⟩ := ih
      have hfirst := fetchMany_held (d := d) p [] (ps ++ qs)
      have hlen : xs.length ≠ 0 := fun h => hps.ne_nil (List.eq_nil_of_length_eq_zero h)
      refine ⟨junk, ?_⟩
      rw [List.append_nil] at hfirst
      rw [List.length_append, List.cons_append, fetchMany_add, hfirst, fetchMany_empty hlen, hread]

end Reading

/-! ### Writing -/

/-- The packet that is being filled, and the packets that were sent. -/
structure Writer (α : Type u) where
  bank : List α
  sent : List (List α)

namespace Writer

variable (size : Nat)

/-- The packet goes out, and an empty one is started. -/
def send (w : Writer α) : Writer α := { bank := [], sent := w.sent ++ [w.bank] }

/-- An item goes into the packet. -/
def write (w : Writer α) (x : α) : Writer α := { w with bank := w.bank ++ [x] }

/-- An item of a message: a packet that is full goes out before it. -/
def put (w : Writer α) (x : α) : Writer α :=
  if w.bank.length < size then w.write x else w.send.write x

/-- The end of a message: if its last packet is full, an empty one follows. -/
def finish (w : Writer α) : Writer α := if w.bank.length < size then w.send else w.send.send

/-- The items of a message. -/
def putAll (w : Writer α) (xs : List α) : Writer α := xs.foldl (put size) w

/-- The packet and those sent since `sent` hold the items `xs`, and those sent are full. -/
structure Filled (sent : List (List α)) (xs : List α) (w : Writer α) : Prop where
  room : w.bank.length ≤ size
  items : ∃ full, w.sent = sent ++ full ∧ (∀ p ∈ full, p.length = size) ∧
    full.flatten ++ w.bank = xs

variable {size} {sent : List (List α)} {xs ys : List α} {w : Writer α}

theorem Filled.put (hsize : 0 < size) (h : Filled size sent xs w) (x : α) :
    Filled size sent (xs ++ [x]) (w.put size x) := by
  obtain ⟨full, hsent, hfull, hitems⟩ := h.items
  unfold Writer.put
  split
  · rename_i hlt
    refine ⟨by simpa [write] using Nat.succ_le_of_lt hlt, full, hsent, hfull, ?_⟩
    rw [← hitems, List.append_assoc]
    rfl
  · rename_i hge
    have hlen : w.bank.length = size := Nat.le_antisymm h.room (Nat.le_of_not_lt hge)
    refine ⟨by simpa [write, send] using Nat.succ_le_of_lt hsize, full ++ [w.bank], ?_, ?_, ?_⟩
    · simp [write, send, hsent]
    · intro p hp
      rcases List.mem_append.mp hp with hmem | hlast
      · exact hfull p hmem
      · rw [List.mem_singleton.mp hlast, hlen]
    · simp [write, send, ← hitems]

theorem Filled.putAll (hsize : 0 < size) (h : Filled size sent xs w) (ys : List α) :
    Filled size sent (xs ++ ys) (w.putAll size ys) := by
  induction ys generalizing xs w with
  | nil => simpa [Writer.putAll] using h
  | cons y ys ih =>
      have hrest := ih (h.put hsize y)
      rwa [List.append_assoc, List.singleton_append] at hrest

end Writer

/-- The packets of a message: all but the last are full, and the last is not. -/
def IsMessage (size : Nat) (xs : List α) (ps : List (List α)) : Prop :=
  ∃ full last, ps = full ++ [last] ∧ (∀ p ∈ full, p.length = size) ∧ last.length < size ∧
    ps.flatten = xs

section Writing

variable {size : Nat} {xs : List α} {ps qs : List (List α)}

/-- A message that is started with an empty packet is sent as one. -/
theorem Writer.finish_putAll (hsize : 0 < size) (sent : List (List α)) (xs : List α) :
    ∃ ps, ((Writer.mk [] sent).putAll size xs).finish size = ⟨[], sent ++ ps⟩ ∧
      IsMessage size xs ps := by
  have hstart : Writer.Filled size sent [] ⟨[], sent⟩ :=
    ⟨Nat.zero_le size, [], (List.append_nil sent).symm, List.forall_mem_nil _, rfl⟩
  have hend := hstart.putAll hsize xs
  obtain ⟨full, hsent, hfull, hitems⟩ := hend.items
  rw [List.nil_append] at hitems
  unfold Writer.finish
  split
  · rename_i hlt
    refine ⟨full ++ [_], ?_, full, _, rfl, hfull, hlt, by simpa using hitems⟩
    rw [Writer.send, hsent, List.append_assoc]
  · rename_i hge
    have hlen := Nat.le_antisymm hend.room (Nat.le_of_not_lt hge)
    refine ⟨full ++ [_] ++ [[]], ?_, full ++ [_], [], rfl, ?_, hsize, by simpa using hitems⟩
    · rw [Writer.send, Writer.send, hsent]
      simp
    · intro p hp
      rcases List.mem_append.mp hp with hmem | hlast
      · exact hfull p hmem
      · rw [List.mem_singleton.mp hlast, hlen]

/-- What the other side makes of the packets: a packet that is not full ends a message. -/
def reassemble (size : Nat) : List α → List (List α) → List (List α)
  | _, [] => []
  | acc, p :: ps =>
      if p.length < size then (acc ++ p) :: reassemble size [] ps
      else reassemble size (acc ++ p) ps

theorem reassemble_full (hfull : ∀ p ∈ ps, p.length = size) (acc : List α) :
    reassemble size acc (ps ++ qs) = reassemble size (acc ++ ps.flatten) qs := by
  induction ps generalizing acc with
  | nil => simp
  | cons p ps ih =>
      have hlen : ¬ p.length < size :=
        Nat.not_lt.mpr (Nat.le_of_eq (hfull p List.mem_cons_self).symm)
      rw [List.cons_append, reassemble, if_neg hlen,
        ih fun q hq => hfull q (List.mem_cons_of_mem p hq)]
      rw [List.flatten_cons, List.append_assoc]

/-- The packets of a message give the message. -/
theorem reassemble_message (h : IsMessage size xs ps) (qs : List (List α)) :
    reassemble size [] (ps ++ qs) = xs :: reassemble size [] qs := by
  obtain ⟨full, last, rfl, hfull, hlast, rfl⟩ := h
  rw [List.append_assoc, reassemble_full hfull, List.singleton_append, reassemble, if_pos hlast]
  simp

/-- The packets of messages that follow each other give the messages. -/
theorem reassemble_messages {xss : List (List α)} {pss : List (List (List α))}
    (h : List.Forall₂ (IsMessage size) xss pss) : reassemble size [] pss.flatten = xss := by
  induction h with
  | nil => rfl
  | cons hmessage _ ih => rw [List.flatten_cons, reassemble_message hmessage, ih]

end Writing

end Lib.Packets
