import Lamina.Proofs.Core.Violations
import Lamina.Proofs.Core.WellFormed

/-!
# Lowered modules are well formed

Whatever text is read and whatever options are chosen: lowering gives every node its contents, once,
and the graph, its references, its owned edges and its scopes are as the later stages expect them.
-/

namespace Lamina

/-- **Lowered modules are well formed.** Lowering never fails for want of a node's contents. A module
that it yields is well formed, with the changes that lowering made as its history, and each
expression of the text is lowered in the scope in which it is written. -/
theorem lowered_module_wellFormed {source : String} {tree : Surface.Module}
    (options : Core.LowerOptions) (htree : parseSource source = .ok tree) :
    (∀ name, (Core.lowerModule options tree).1 ≠ .error (.unfilledNode name)) ∧
      ∀ m, (Core.lowerModule options tree).1 = .ok m →
        m.WellFormed tree.decls (Core.lowerHistory options tree) ∧
          Core.LoweredModule m options.preludeOperators tree := by
  have hformed := parseSource_formed htree
  refine ⟨?_, ?_⟩
  · -- an error is about a site of the text, and none of these is about a node
    intro name herror
    obtain ⟨site, _, hblames⟩ := Core.lowerModule_blames hformed herror
    cases hblames
  · intro m hm
    exact ⟨Core.wellFormed_of_lowerModule hformed hm, (Core.lowerModule_ok hformed hm).2.1⟩

/-- A text with two wildcards in one function, functions in blocks and blocks in functions, and
bindings that use each other. -/
def nestedText : String :=
  "pick _ x _ = let y = x + z; z = \\_ -> y in z\n" ++
  "main = pick 1 2 (let k = \\a b -> - a in k)"

/-- The text has four functions and three reserved nodes besides its two definitions. -/
theorem nestedText_wellFormed :
    ∃ tree m, parseSource nestedText = .ok tree ∧ (Core.lowerModule {} tree).1 = .ok m ∧
      (Core.moduleScopes tree.decls).length = 7 ∧
      ((List.range m.graph.size).filter (Core.History.Reserves (Core.lowerHistory {} tree))).length =
        5 ∧
      m.WellFormed tree.decls (Core.lowerHistory {} tree) := by
  have hcheck : ((parseSource nestedText).toOption.bind fun tree =>
      (Core.lowerModule {} tree).1.toOption.map fun m =>
        ((Core.moduleScopes tree.decls).length,
          ((List.range m.graph.size).filter
            (Core.History.Reserves (Core.lowerHistory {} tree))).length)) =
      some (7, 5) := by
    decide +kernel
  obtain ⟨tree, htree, hcheck⟩ := Option.bind_eq_some_iff.mp hcheck
  obtain ⟨m, hm, hcheck⟩ := Option.map_eq_some_iff.mp hcheck
  obtain ⟨hscopes, hslots⟩ := Prod.mk.inj hcheck
  have hwellFormed := (lowered_module_wellFormed {} (ok_of_toOption htree)).2 m (ok_of_toOption hm)
  exact ⟨tree, m, ok_of_toOption htree, ok_of_toOption hm, hscopes, hslots, hwellFormed.1⟩

end Lamina
