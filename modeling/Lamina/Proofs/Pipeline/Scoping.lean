import Lamina.Proofs.Flat.CScope
import Lamina.Proofs.Pipeline.Stages

/-!
# Compiled programs have single assignments

A program that was compiled from a text sets each variable once and reads what is in scope, so that
its C text is accepted.
-/

namespace Lamina

open Flat (Program SingleAssignment Var)
open Flat.CText (Accepted instrsText statements statementsText)

/-- **Compiled programs have single assignments, and C text that respects scopes.** No temporary is
set twice in a program. In each function and in the entry, parameters and set variables are
different, an instruction reads parameters and what was set before it in its block or in a block
around it, and a block sets its result at its top level. The C text of instructions is a list of
statements, which for each function and for the entry declare no name twice and read no name without
a value. -/
theorem compiled_single_assignment {options : CompileOptions} {source : String} {p : Program}
    (hp : (flattenSource options source).result = .ok p) :
    ((p.walk.map (·.dst)).filter Var.isTemp).Nodup ∧
      (∀ f ∈ p.functions, SingleAssignment f.allParams f.body) ∧ SingleAssignment [] p.entry ∧
      (∀ depth instrs, instrsText p depth instrs = statementsText depth (statements p instrs)) ∧
      (∀ f ∈ p.functions, Accepted p f.allParams f.body) ∧ Accepted p [] p.entry := by
  rw [flattenSource_outline] at hp
  obtain ⟨m, hm, hp⟩ := ok_of_bind hp
  obtain ⟨o, ho, hp⟩ := ok_of_map hp
  obtain ⟨tree, htree, hm⟩ := lowerSource_ok hm
  have hformed := parseSource_formed htree
  obtain ⟨shaped, _, _⟩ := Core.lowerModule_ok hformed hm
  have wellFormed := Core.wellFormed_of_lowerModule hformed hm
  obtain ⟨entry, _, hcovers⟩ := Flat.outlineOf_covers (ok_of_mapError ho)
  have htemps := Flat.assemble_temps options.direct m o
  obtain ⟨hfunctions, hentry⟩ :=
    Flat.assemble_singleAssignment shaped wellFormed hcovers options.direct
  rw [hp] at htemps hfunctions hentry
  exact ⟨htemps, hfunctions, hentry, Flat.CText.instrsText_eq p,
    Flat.CText.assemble_accepted options.direct m o hp hfunctions hentry⟩

/-- A text in which a value with a branch is used twice, in a branch of a function with captures. -/
def branchText : String :=
  "f a = let s = if a <= 2 then a else 0 in \\b -> if (if b then s == 1 else b) then s else a\n" ++
  "main = f 1 True"

/-- The text has two functions, one with a capture, and 23 instructions. -/
theorem branchText_accepted :
    ∃ p, (flattenSource {} branchText).result = .ok p ∧
      p.functions.toList.map (·.allParams.length) = [1, 2] ∧
      p.walk.length = 23 ∧
      ((p.walk.map (·.dst)).filter Var.isTemp).Nodup ∧
      (∀ f ∈ p.functions, SingleAssignment f.allParams f.body ∧ Accepted p f.allParams f.body) ∧
      SingleAssignment [] p.entry ∧ Accepted p [] p.entry := by
  have hcheck : ((flattenSource {} branchText).result.toOption.map fun p =>
      (p.functions.toList.map (·.allParams.length), p.walk.length)) =
      some ([1, 2], 23) := by
    decide +kernel
  obtain ⟨p, hp, hcheck⟩ := Option.map_eq_some_iff.mp hcheck
  obtain ⟨hparams, hlength⟩ := Prod.mk.inj hcheck
  obtain ⟨htemps, hfunctions, hentry, _, haccepted, hmain⟩ :=
    compiled_single_assignment (ok_of_toOption hp)
  exact ⟨p, ok_of_toOption hp, hparams, hlength, htemps,
    fun f hf => ⟨hfunctions f hf, haccepted f hf⟩, hentry, hmain⟩

end Lamina
