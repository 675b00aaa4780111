import Lamina.Proofs.Core.Lowering
import Lamina.Proofs.Core.Meaning

/-!
# Lowering preserves meaning

The graph of a module is evaluated as the tree of its text: in step, with the same output, the same
errors and the same values.
-/

namespace Lamina

open Reference (Agree Mirrors)

/-- **Lowering preserves meaning.** If the text defines the entry, the graph does. Evaluating the
definition in the tree and evaluating its node in the graph agree, within all bounds: neither
finishes, or both write the same text and end with the same error or value. -/
theorem lowering_preserves_meaning {source : String} {tree : Surface.Module}
    {options : Core.LowerOptions} {m : Core.Module} {e : Surface.Expr}
    (htree : parseSource source = .ok tree) (hm : (Core.lowerModule options tree).1 = .ok m)
    (he : Surface.definition? options.entry tree.decls = some e) :
    ∃ entry, m.definition? m.entry = some entry ∧
      ∀ number fuel nest, Agree (Mirrors Surface.Closure.arity (·.arity m))
        (Surface.eval options.preludeOperators number fuel nest (.expr [.block tree.decls] e))
        (Core.eval m number fuel nest [] entry) := by
  have hformed := parseSource_formed htree
  obtain ⟨_, hlowered, hentry⟩ := Core.lowerModule_ok hformed hm
  have hfound := Core.block_matches hformed hlowered.definitions options.entry
  have hnode : m.definition? m.entry = m.definitions.lookup options.entry := by
    rw [hentry]
    rfl
  rw [hnode]
  cases hentry : m.definitions.lookup options.entry with
  | none =>
    rw [hentry, he] at hfound
    cases hfound
  | some entry =>
    rw [hentry, he] at hfound
    obtain ⟨_, heq, hexpr, hbody⟩ := hfound
    cases heq
    refine ⟨entry, rfl, fun number fuel nest => ?_⟩
    have hscopes : Core.ScopesMatch m options.preludeOperators
        [m.definitions, m.scopes.bindings m.root] [.block tree.decls] [] :=
      .block hformed hlowered.definitions (.prelude hlowered.prelude)
    exact (Core.eval_agree number (.expr hexpr hbody hscopes)).mono
      fun _ _ h => h.mirrors fun h => h.arity_eq

/-- A text with a wildcard, a name that is bound twice, bindings that use each other, prefix minus,
and an operator that is bound nowhere. -/
def scopesText : String :=
  "flip f x y = f y x\n" ++
  "main = (\\_ x -> - x + y) 0 (flip (/) 2 x) where\n" ++
  "  x = y * 4\n" ++
  "  y = 5"

/-- Both evaluations of the text end with one value. -/
theorem scopesText_preserves_meaning :
    ∃ tree m e entry, parseSource scopesText = .ok tree ∧ (Core.lowerModule {} tree).1 = .ok m ∧
      Surface.definition? "main" tree.decls = some e ∧ m.definition? m.entry = some entry ∧
      Surface.eval true (fun _ => 0) 20 5 (.expr [.block tree.decls] e) "" =
        some (.ok (.int (-5)), "") ∧
      Core.eval m (fun _ => 0) 20 5 [] entry "" = some (.ok (.int (-5)), "") := by
  have hcheck : ((parseSource scopesText).toOption.bind fun tree =>
      (Core.lowerModule {} tree).1.toOption.bind fun m =>
      (Surface.definition? "main" tree.decls).bind fun e =>
      (Surface.eval true (fun _ => 0) 20 5 (.expr [.block tree.decls] e)).answer?.bind fun answer =>
      answer.1.int?.map (·, answer.2)) = some (-5, "") := by
    decide +kernel
  obtain ⟨tree, htree, hcheck⟩ := Option.bind_eq_some_iff.mp hcheck
  obtain ⟨m, hm, hcheck⟩ := Option.bind_eq_some_iff.mp hcheck
  obtain ⟨e, he, hcheck⟩ := Option.bind_eq_some_iff.mp hcheck
  obtain ⟨⟨v, out⟩, heval, hcheck⟩ := Option.bind_eq_some_iff.mp hcheck
  obtain ⟨n, hint, heq⟩ := Option.map_eq_some_iff.mp hcheck
  cases heq
  obtain rfl := Reference.Value.eq_int_of_int? hint
  have heval := Reference.EvalM.eq_of_answer? heval
  obtain ⟨entry, hentry, hagree⟩ :=
    lowering_preserves_meaning (ok_of_toOption htree) (ok_of_toOption hm) he
  refine ⟨tree, m, e, entry, ok_of_toOption htree, ok_of_toOption hm, he, hentry, heval, ?_⟩
  have hout := hagree (fun _ => 0) 20 5 ""
  rcases hcore : Core.eval m (fun _ => 0) 20 5 [] entry "" with _ | ⟨error | v, out⟩ <;>
    rw [heval, hcore] at hout
  · exact hout.elim
  · exact hout.elim
  · obtain ⟨rfl, rfl⟩ := hout
    rfl

end Lamina
