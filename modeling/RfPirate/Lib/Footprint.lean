/-
Module: RfPirate.Lib.Footprint
Layer: Lib
Purpose: Updates of a store of cells that are local to a set of cells: they leave the other cells
  alone, and what they put in their own depends on these only. Local updates compose, and those of
  disjoint sets commute.
Main exports: Local, Local.update, Local.comp, Local.commute
-/
import Mathlib.Data.Set.Defs
import Mathlib.Logic.Function.Basic

namespace Lib

universe u v

variable {ι : Type u} {β : Type v}

/-- The update reads and writes the cells of `S` only. -/
structure Local (S : Set ι) (f : (ι → β) → ι → β) : Prop where
  frame : ∀ s, ∀ i ∉ S, f s i = s i
  reads : ∀ s s', (∀ i ∈ S, s i = s' i) → ∀ i ∈ S, f s i = f s' i

namespace Local

variable {S T : Set ι} {f g : (ι → β) → ι → β}

theorem id (S : Set ι) : Local S fun s : ι → β => s :=
  ⟨fun _ _ _ => rfl, fun _ _ h => h⟩

/-- Writing one cell, with a value that depends on cells of the set. -/
theorem update [DecidableEq ι] {i : ι} {value : (ι → β) → β} (hi : i ∈ S)
    (hvalue : ∀ s s', (∀ j ∈ S, s j = s' j) → value s = value s') :
    Local S fun s => Function.update s i (value s) := by
  refine ⟨fun s j hj => ?_, fun s s' hsame j hj => ?_⟩
  · have hne : j ≠ i := by
      rintro rfl
      exact hj hi
    exact Function.update_of_ne hne _ _
  · rw [Function.update_apply, Function.update_apply, hvalue s s' hsame, hsame j hj]

theorem comp (hf : Local S f) (hg : Local S g) : Local S fun s => g (f s) := by
  refine ⟨fun s i hi => ?_, fun s s' hsame => ?_⟩
  · rw [hg.frame _ i hi, hf.frame s i hi]
  · exact hg.reads _ _ (hf.reads s s' hsame)

/-- Two updates that share no cell. -/
theorem commute (hf : Local S f) (hg : Local T g) (hnotT : ∀ i ∈ S, i ∉ T) (s : ι → β) :
    f (g s) = g (f s) := by
  have hnotS : ∀ i ∈ T, i ∉ S := fun i hT hS => hnotT i hS hT
  funext i
  by_cases hS : i ∈ S
  · rw [hg.frame (f s) i (hnotT i hS)]
    exact hf.reads (g s) s (fun j hj => hg.frame s j (hnotT j hj)) i hS
  · rw [hf.frame (g s) i hS]
    by_cases hT : i ∈ T
    · exact (hg.reads (f s) s (fun j hj => hf.frame s j (hnotS j hj)) i hT).symm
    · rw [hg.frame s i hT, hg.frame (f s) i hT, hf.frame s i hS]

end Local

end Lib
