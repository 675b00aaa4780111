import Lamina.Proofs.Pipeline.Stages

/-!
# Direct calls of intrinsics

An intrinsic with all its arguments may be called directly or by way of its closure. The choice is
not seen in what a text compiles to or in how the program runs.
-/

namespace Lamina

open Flat (Outline Numbers outlineOf)
open Machine (run)

/-- The program of an outline runs in one way, however its intrinsics are called. -/
theorem run_assemble_direct {m o} (h : outlineOf m = .ok o) (limit : Nat) :
    (run limit (o.assemble true m ⟨0, []⟩).1).1 = (run limit (o.assemble false m ⟨0, []⟩).1).1 := by
  obtain ⟨number, _, hnumber⟩ := Flat.exists_numbers o.table_distinct
  obtain ⟨entry, _, hcovers⟩ := Flat.outlineOf_covers h
  rw [Flat.run_assemble hnumber hcovers.mentions_scope,
    Flat.run_assemble hnumber hcovers.mentions_scope]

/-- **Direct calls and calls by closure agree.** A text compiles with both or with neither, and then
with the same error; and the two programs run alike under every limit on nested calls, with the same
output and value or with the same error. -/
theorem direct_calls_agree (options : CompileOptions) (source : String) (limit : Nat) :
    (flattenSource { options with direct := true } source).result.map
        (fun p => (run limit p).1) =
      (flattenSource { options with direct := false } source).result.map
        fun p => (run limit p).1 := by
  rw [flattenSource_outline, flattenSource_outline]
  simp only
  -- the two sides are reduced before they are compared: they differ in the code of every body
  rcases lowerSource options.lower source with ⟨_ | m, events⟩
  · simp only [Except.bind, Except.map]
  · simp only [Except.bind]
    cases ho : outlineOf m with
    | error e => simp only [Except.mapError, Except.map]
    | ok o => simp only [Except.mapError, Except.map, run_assemble_direct ho limit]

end Lamina
