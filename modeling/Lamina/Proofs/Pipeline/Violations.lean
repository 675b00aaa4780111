import Lamina.Proofs.Core.Violations
import Lamina.Proofs.Pipeline.Stages

/-!
# Which texts are lowered

A text is lowered if and only if each of its sites keeps its rule, and an error is about a site that
does not.
-/

namespace Lamina

open Lamina.Core (lowerModule moduleSites)

/-- The tree of a text is lowered if and only if no block has a declaration that is not supported or
two bindings of one name, no list of parameters has a name other than `_` twice, nothing is of a
kind that is refused, and every name that is used is bound by a parameter, a block, the module or
the prelude around it, or is an operator that may fall back to an intrinsic. Any error is about a
site that breaks its rule, and one about a name shows all names that are visible there, innermost
first, and not that name. -/
theorem lowering_fails_at_violations {source : String} {tree : Surface.Module}
    (htree : parseSource source = .ok tree) (options : Core.LowerOptions) :
    ((∃ m, (lowerModule options tree).1 = .ok m) ↔
      ∀ site ∈ moduleSites options.preludeOperators tree, site.Lawful options) ∧
    ∀ e, (lowerModule options tree).1 = .error e →
      ∃ site ∈ moduleSites options.preludeOperators tree,
        site.Blames options e ∧ ¬ site.Lawful options := by
  have hformed := parseSource_formed htree
  refine ⟨Core.lowerModule_lawful options hformed, fun e he => ?_⟩
  obtain ⟨site, hsite, hblames⟩ := Core.lowerModule_blames hformed he
  exact ⟨site, hsite, hblames, hblames.not_lawful⟩

/-- A text with a name that is bound nowhere, inside a lambda inside a `let` inside a function. -/
def lostText : String :=
  "f x _ = let y = \\z -> k (lost z); k = \\x -> y x in k x\n" ++
  "main = f 1 2"

/-- The names that are visible where the name stands: those of the lambda, those of the `let`, of
which one is bound later, those of the function, with a stand-in for its wildcard, and those of the
module and the prelude. -/
def lostScopes : Core.Snapshot :=
  [⟨.paramScope, ["z"]⟩, ⟨.letScope, ["y", "k"]⟩, ⟨.paramScope, ["x", "_@1"]⟩,
    ⟨.moduleScope, ["f", "main"]⟩,
    ⟨.preludeScope, ["+", "-", "*", "div", "mod", "==", "<=", ">=", "negate", "show", "putStrLn"]⟩]

/-- The name is reported with all that is visible, so it is one that breaks a rule. -/
theorem lostText_blames :
    ∃ tree, parseSource lostText = .ok tree ∧
      (lowerModule {} tree).1 = .error (.unresolved "lost" lostScopes ⟨25, 29⟩) ∧
      (∃ site ∈ moduleSites true tree, site.Blames {} (.unresolved "lost" lostScopes ⟨25, 29⟩) ∧
        ¬ site.Lawful {}) ∧ ¬ ∃ m, (lowerModule {} tree).1 = .ok m := by
  have hcheck : ((parseSource lostText).toOption.bind fun tree =>
      match (lowerModule {} tree).1 with
      | .error e => some e
      | .ok _ => none) = some (.unresolved "lost" lostScopes ⟨25, 29⟩) := by
    decide +kernel
  obtain ⟨tree, htree, hcheck⟩ := Option.bind_eq_some_iff.mp hcheck
  split at hcheck
  · rename_i e hfails
    cases hcheck
    have htree := ok_of_toOption htree
    obtain ⟨_, hblames⟩ := lowering_fails_at_violations htree {}
    refine ⟨tree, htree, hfails, hblames _ hfails, ?_⟩
    rintro ⟨m, hm⟩
    rw [hfails] at hm
    cases hm
  · cases hcheck

end Lamina
