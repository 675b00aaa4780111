import Lamina.Proofs.Core.Lowering
import Lamina.Proofs.Flat.Constructors
import Lamina.Proofs.Flat.Plan
import Lamina.Proofs.Surface.Formed

/-!
# The stages of the pipeline

What comes out of each stage of a compilation that gets that far: a module that is lowered from the
tree of the text, and a program that is assembled from the outline of that module.
-/

namespace Lamina

open Flat (Outline Numbers outlineOf convert)
open Machine (run)

variable {options : Core.LowerOptions} {source : String} {m : Core.Module}

/-- Lowering a text is parsing it and lowering the tree. -/
theorem lowerSource_ok (h : (lowerSource options source).result = .ok m) :
    ∃ tree, parseSource source = .ok tree ∧ (Core.lowerModule options tree).1 = .ok m := by
  unfold lowerSource at h
  cases htree : parseSource source with
  | error e =>
    rw [htree] at h
    cases h
  | ok tree =>
    rw [htree] at h
    exact ⟨tree, rfl, ok_of_mapError h⟩

theorem lowerSource_ok_iff {tree} (htree : parseSource source = .ok tree) :
    (lowerSource options source).result = .ok m ↔ (Core.lowerModule options tree).1 = .ok m := by
  constructor
  · intro h
    obtain ⟨tree', htree', hm⟩ := lowerSource_ok h
    cases htree.symm.trans htree'
    exact hm
  · intro hm
    unfold lowerSource
    rw [htree]
    show (Core.lowerModule options tree).1.mapError Error.lower = _
    rw [hm]
    rfl

theorem lowerSource_shaped (h : (lowerSource options source).result = .ok m) : m.Shaped := by
  obtain ⟨tree, htree, hm⟩ := lowerSource_ok h
  exact (Core.lowerModule_ok (parseSource_formed htree) hm).1

/-- Compiling a text to a program is lowering it and converting the module. -/
theorem flattenSource_result (options : CompileOptions) (source : String) :
    (flattenSource options source).result =
      (lowerSource options.lower source).result.bind fun m =>
        (convert options.direct m).1.mapError Error.convert := by
  unfold flattenSource
  rcases lowerSource options.lower source with ⟨_ | m, events⟩ <;> rfl

/-- The program of a text is assembled from an outline that does not depend on how intrinsics are
called. -/
theorem flattenSource_outline (options : CompileOptions) (source : String) :
    (flattenSource options source).result =
      (lowerSource options.lower source).result.bind fun m =>
        ((outlineOf m).mapError Error.convert).map fun o =>
          (o.assemble options.direct m ⟨0, []⟩).1 := by
  rw [flattenSource_result]
  cases hm : (lowerSource options.lower source).result with
  | error e => rfl
  | ok m =>
    show (convert options.direct m).1.mapError Error.convert = _
    rw [Flat.convert_eq (lowerSource_shaped hm)]
    simp only [Except.bind]
    cases outlineOf m <;> rfl

end Lamina
