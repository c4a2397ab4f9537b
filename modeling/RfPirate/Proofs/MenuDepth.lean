/-
Module: RfPirate.Proofs.MenuDepth
Layer: Proofs
Purpose: The index into the menu stack. Entering a submenu increments it without a test, for every
  menu graph and whatever the depth, so it stays in range exactly as long as no submenu is entered
  from the last level.
Main exports: KeepsStackIdx, keyHandler_stackIdx, DepthLaw, DepthOk, menu_depth
-/
import RfPirate.Proofs.MenuPath

namespace RfPirate

open Lib Lib.Machine

section Depth

variable {σ : Type*}

/-- Callbacks and exec functions do not write `stack_idx`, which is private to the menu. -/
structure KeepsStackIdx (P : Program σ) : Prop where
  call : ∀ cb event data w, (P.call cb event data w).2.menu.stackIdx = w.menu.stackIdx
  exec : ∀ f w, (P.exec f w).menu.stackIdx = w.menu.stackIdx

variable {P : Program σ} {fuel : Nat} {w w' : World σ} {offers : List Offer}

theorem syncevent_stackIdx (hkeep : KeepsStackIdx P) {event : UInt8} {data : UInt16}
    (h : evtHandlerSyncevent P.callbacks event data fuel w = some (w', offers)) :
    w'.menu.stackIdx = w.menu.stackIdx := by
  refine @syncevent_keeps _ P.callbacks event data
    (fun w₁ => w₁.menu.stackIdx = w.menu.stackIdx) fuel w w' offers ?_ h rfl
  exact fun cb w₁ h₁ => (hkeep.call cb event data w₁).trans h₁

theorem drawMenu_stackIdx (h : drawMenu P w = some w') :
    w'.menu.stackIdx = w.menu.stackIdx := by
  obtain ⟨cnt, oled, buf, -, rfl⟩ := drawMenu_eq h
  rfl

theorem keyLeftCase_stackIdx (hkeep : KeepsStackIdx P)
    (h : keyLeftCase P fuel w = some (w', offers)) : w'.menu.stackIdx ≤ w.menu.stackIdx := by
  cases keyLeftCase_effect h with
  | close _ eq =>
      subst eq
      exact Nat.le_refl _
  | root _ _ eq => rw [eq]
  | leave _ _ _ eq =>
      subst eq
      exact Nat.sub_le _ _
  | leaveApp _ _ _ stop eq =>
      subst eq
      show _ ≤ w.menu.stackIdx
      rw [syncevent_stackIdx hkeep stop]
      exact Nat.sub_le _ _

/-- `KEY_RIGHT` leaves the index alone, or increments the byte, on an entry with a submenu. -/
theorem keyRightCase_stackIdx (hkeep : KeepsStackIdx P)
    (h : keyRightCase P fuel w = some (w', offers)) :
    w'.menu.stackIdx =
      if (P.entry w).next?.isSome then (w.menu.stackIdx + 1) % 256 else w.menu.stackIdx := by
  cases keyRightCase_effect h with
  | openDrop closed eq =>
      subst eq
      rw [next?_of_onDropdown closed]
      rfl
  | enter entry eq =>
      subst eq
      rw [entry]
      rfl
  | enterApp entry start _ eq =>
      subst eq
      have hsame := syncevent_stackIdx hkeep start
      rw [entry]
      show _ % 256 = _ % 256
      rw [hsame]
      rfl
  | nothing leaf eq =>
      rw [leaf, eq]
      rfl

/-- Only `KEY_RIGHT` on an entry with a submenu raises the index. -/
theorem keyHandler_stackIdx (hkeep : KeepsStackIdx P) {k : UInt8}
    (h : keyHandler P fuel w k = some (w', offers)) :
    (k = keyRight → w'.menu.stackIdx =
      if (P.entry w).next?.isSome then (w.menu.stackIdx + 1) % 256 else w.menu.stackIdx) ∧
    (k ≠ keyRight → w'.menu.stackIdx ≤ w.menu.stackIdx) := by
  obtain ⟨w₁, heffect, hdraw⟩ := keyHandler_effect h
  rw [drawMenu_stackIdx hdraw]
  cases heffect with
  | up eq =>
      refine ⟨fun hk => absurd hk (by decide), fun _ => ?_⟩
      subst eq
      unfold keyUpCase
      split <;> exact Nat.le_refl _
  | down eq =>
      refine ⟨fun hk => absurd hk (by decide), fun _ => ?_⟩
      subst eq
      unfold keyDownCase
      split
      · exact Nat.le_refl _
      · split <;> exact Nat.le_refl _
  | left case => exact ⟨fun hk => absurd hk (by decide), fun _ => keyLeftCase_stackIdx hkeep case⟩
  | right case => exact ⟨fun _ => keyRightCase_stackIdx hkeep case, fun hk => absurd rfl hk⟩
  | select eq =>
      refine ⟨fun hk => absurd hk (by decide), fun _ => ?_⟩
      subst eq
      unfold keySelectCase
      split
      · exact Nat.le_of_eq (hkeep.exec _ w)
      · exact Nat.le_refl _
  | other _ _ _ hright eq =>
      subst eq
      exact ⟨fun hk => absurd hk hright, fun _ => Nat.le_refl _⟩

/-- After the key the index is in range, and a `KEY_RIGHT` with no level left for the submenu has
    not changed the menu. -/
def DepthLaw (P : Program σ) (fuel : Nat) (w : World σ) (k : UInt8) : Prop :=
  After (keyHandler P fuel) (fun w' => w'.menu.stackIdx < maxMenuDepth ∧
    (k = keyRight → (P.entry w).next?.isSome → maxMenuDepth ≤ w.menu.stackIdx + 1 →
      w'.menu = w.menu)) w k

/-- `KEY_RIGHT` on an entry with a submenu is pressed with a level left for it. -/
def DepthOk (P : Program σ) (w : World σ) (k : UInt8) : Prop :=
  k = keyRight → (P.entry w).next?.isSome → w.menu.stackIdx + 1 < maxMenuDepth
deriving Decidable

theorem depthLaw_of_ok (hkeep : KeepsStackIdx P) (hidx : w.menu.stackIdx < maxMenuDepth)
    {k : UInt8} (hok : DepthOk P w k) : DepthLaw P fuel w k := by
  intro w' offers h
  obtain ⟨hright, hother⟩ := keyHandler_stackIdx hkeep h
  constructor
  · by_cases hk : k = keyRight
    · rw [hright hk]
      split
      · rename_i hnext
        exact Nat.lt_of_le_of_lt (Nat.mod_le _ _) (hok hk hnext)
      · exact hidx
    · exact Nat.lt_of_le_of_lt (hother hk) hidx
  · intro hk hnext hfull
    have := hok hk hnext
    omega

theorem depthOk_of_law (hkeep : KeepsStackIdx P) (hidx : w.menu.stackIdx < maxMenuDepth)
    {k : UInt8} (hreturns : (keyHandler P fuel w k).isSome) (hlaw : DepthLaw P fuel w k) :
    DepthOk P w k := by
  intro hk hnext
  obtain ⟨⟨w', offers⟩, h⟩ := Option.isSome_iff_exists.mp hreturns
  have hidx' := (hlaw w' offers h).1
  rw [(keyHandler_stackIdx hkeep h).1 hk, if_pos hnext] at hidx'
  simp only [maxMenuDepth] at hidx hidx' ⊢
  omega

/-- For every menu graph, in every run of keys in which no submenu is entered from the last level
    of the stack, the index stays in range. A run that goes to its end obeys the law in no other
    case. -/
theorem menu_depth (P : Program σ) (hkeep : KeepsStackIdx P)
    (hidx : w.menu.stackIdx < maxMenuDepth) (fuel : Nat) (keys : List UInt8) :
    (Guarded (keyHandler P fuel) (DepthOk P) w keys →
      Guarded (keyHandler P fuel) (DepthLaw P fuel) w keys) ∧
    ((run (keyHandler P fuel) w keys).isSome →
      (Guarded (keyHandler P fuel) (DepthLaw P fuel) w keys ↔
        Guarded (keyHandler P fuel) (DepthOk P) w keys)) := by
  have hstep : ∀ w k w' offers, w.menu.stackIdx < maxMenuDepth → DepthLaw P fuel w k →
      keyHandler P fuel w k = some (w', offers) → w'.menu.stackIdx < maxMenuDepth :=
    fun w k w' offers _ hlaw h => (hlaw w' offers h).1
  exact guarded_iff_of_run (fun w k h hok => depthLaw_of_ok hkeep h hok)
    (fun w k h hreturns hlaw => depthOk_of_law hkeep h hreturns hlaw) hstep hidx keys

end Depth

/-- A menu whose one `TYPE_BRANCH` entry leads back to it. -/
def selfBranch : Program Unit :=
  { nestedApps with
    menus := fun _ i => if i = 0 then .branch (some letterA) 0 else .dummy none }

theorem selfBranch_keepsStackIdx : KeepsStackIdx selfBranch :=
  ⟨fun _ _ _ _ => rfl, fun _ _ => rfl⟩

/-- Two levels down and up again. -/
theorem menu_depth_two_levels :
    Guarded (keyHandler selfBranch 3) (DepthLaw selfBranch 3) nestedAppsWorld
      [keyRight, keyRight, keyLeft, keyLeft] :=
  (menu_depth selfBranch selfBranch_keepsStackIdx (by decide) 3 _).1 (by decide +kernel)

/-- The tenth `KEY_RIGHT` raises the index to `MAX_MENU_DEPTH`. -/
theorem menu_depth_fails :
    (run (keyHandler selfBranch 3) nestedAppsWorld (List.replicate 10 keyRight)).map
        (fun r => r.1.menu.stackIdx) = some maxMenuDepth ∧
    ¬ Guarded (keyHandler selfBranch 3) (DepthLaw selfBranch 3) nestedAppsWorld
      (List.replicate 10 keyRight) := by
  have hten : (run (keyHandler selfBranch 3) nestedAppsWorld (List.replicate 10 keyRight)).map
      (fun r => r.1.menu.stackIdx) = some maxMenuDepth := by decide +kernel
  refine ⟨hten, fun hlaw => ?_⟩
  obtain ⟨⟨w, offers⟩, hrun, hidx⟩ := Option.map_eq_some_iff.mp hten
  have hkeys : ∀ w (o : List Offer) k w' o', w.menu.stackIdx < maxMenuDepth →
      DepthLaw selfBranch 3 w k → keyHandler selfBranch 3 w k = some (w', o') →
        w'.menu.stackIdx < maxMenuDepth := fun _ _ _ w' o' _ hlaw h => (hlaw w' o' h).1
  have hinit : nestedAppsWorld.menu.stackIdx < maxMenuDepth := by decide
  have hinv := run_guarded_induction _ hkeys hinit hlaw hrun
  exact absurd hidx (Nat.ne_of_lt hinv)

end RfPirate
