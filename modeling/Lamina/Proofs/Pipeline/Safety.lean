import Lamina.Proofs.Flat.Safety
import Lamina.Proofs.Pipeline.Stages

/-!
# Compiled programs are safe

A program that was compiled from a text fails only for reasons that can be found in the text: it
applies what is no function, mixes up types, divides by zero, nests calls too deep, or calls a
function with more parameters than a call can have arguments.
-/

namespace Lamina

open Flat (Outline Numbers maxArity Program)
open Machine (run RunError)

variable {options : CompileOptions} {source : String} {p : Program}

/-- A program that was compiled from a text is assembled from a sound outline. -/
theorem flattenSource_assembled (h : (flattenSource options source).result = .ok p) :
    ∃ (m : Core.Module) (o : Outline) (number : String → Nat), o.Sound ∧ Numbers number o.table ∧
      p = (o.assemble options.direct m ⟨0, []⟩).1 := by
  rw [flattenSource_outline] at h
  obtain ⟨m, hm, h⟩ := ok_of_bind h
  obtain ⟨o, ho, rfl⟩ := ok_of_map h
  have ho := ok_of_mapError ho
  obtain ⟨entry, _, hcovers⟩ := Flat.outlineOf_covers ho
  obtain ⟨number, _, hnumber⟩ := Flat.exists_numbers o.table_distinct
  exact ⟨m, o, number, hcovers.sound (lowerSource_shaped hm) (Flat.planOf_settled m false),
    hnumber, rfl⟩

/-- A program that was compiled from a text runs as a sound outline, whose routines are as many
functions of the program with the same number of parameters. -/
theorem flattenSource_sound (h : (flattenSource options source).result = .ok p) :
    ∃ o : Outline, o.Sound ∧ (∀ r ∈ o.routines, ∃ f ∈ p.functions, f.arity = r.scope.length) ∧
      ∃ number, ∀ limit, (run limit p).1 = o.run number limit := by
  obtain ⟨m, o, number, hsound, hnumber, rfl⟩ := flattenSource_assembled h
  exact ⟨o, hsound, fun r hr => Flat.function_of_routine options.direct m hr, number,
    Flat.run_assemble hnumber hsound.toScoped⟩

/-- **Compiled programs reach no internal error.** A run fails neither for the number of arguments
of a call, nor for a variable that is not set, nor for a function or a global that is not there; and
it complains about an arity only if a function of the program has that arity, above the maximum. -/
theorem compiled_run_safe {options : CompileOptions} {source : String} {p : Program} {limit : Nat}
    {e : RunError} (hp : (flattenSource options source).result = .ok p)
    (he : (run limit p).1 = .error e) :
    (∀ expected found, e ≠ .arityMismatch expected found) ∧
      (∀ name, e ≠ .undefinedVariable name) ∧
      (∀ id, e ≠ .unknownFunction id) ∧
      (∀ slot, e ≠ .unknownGlobal slot) ∧
      ∀ arity, e = .unsupportedArity arity →
        maxArity < arity ∧ ∃ f ∈ p.functions, f.arity = arity := by
  obtain ⟨o, hsound, hfunctions, number, hrun⟩ := flattenSource_sound hp
  have hfair : o.Fair e := Outline.run_fair number hsound ((hrun limit).symm.trans he)
  refine ⟨?_, ?_, ?_, ?_, ?_⟩
  · rintro expected found rfl
    exact hfair
  · rintro name rfl
    exact hfair
  · rintro id rfl
    exact hfair
  · rintro slot rfl
    exact hfair
  · rintro arity rfl
    obtain ⟨hmax, r, hr, rfl⟩ := hfair
    exact ⟨hmax, hfunctions r hr⟩

/-- A text with a function of nine parameters, and a call of it. -/
def nineParametersText : String :=
  "f a b c d e g h i j = a\n" ++
  "main = f 1 2 3 4 5 6 7 8 9"

/-- The text compiles, and running it fails for the number of parameters. -/
theorem nine_parameters_run_safe :
    ∃ p, (flattenSource {} nineParametersText).result = .ok p ∧
      (run 10 p).1 = .error (.unsupportedArity 9) ∧ maxArity < 9 ∧
      ∃ f ∈ p.functions, f.arity = 9 := by
  have hrun : ((flattenSource {} nineParametersText).result.toOption.bind fun p =>
      match (run 10 p).1 with
      | .error e => some e
      | .ok _ => none) = some (.unsupportedArity 9) := by
    decide +kernel
  obtain ⟨p, hp, he⟩ := Option.bind_eq_some_iff.mp hrun
  have hp' := ok_of_toOption hp
  split at he
  · rename_i e hfails
    cases he
    exact ⟨p, hp', hfails, (compiled_run_safe hp' hfails).2.2.2.2 9 rfl⟩
  · cases he

end Lamina
