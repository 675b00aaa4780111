import Lamina.Proofs.Surface.Formed

/-!
# The spans of a syntax tree
-/

namespace Lamina

/-- **Spans nest.** Every span in the tree of a text goes from one character boundary of the text to
one that is not before it. The span of the module, of a declaration and of an expression has the
spans of all its parts inside, and the declarations of a block stand one behind the other. -/
theorem spans_nest {source : String} {tree : Surface.Module} (h : parseSource source = .ok tree) :
    tree.Between (boundary source) 0 source.utf8ByteSize := (parseSource_tree h).2

/-- A text with a header, a type behind an expression, brackets that leave no trace in the tree, and
a block behind the value it is for. -/
def nestingText : String :=
  "module M (f) where\n" ++
  "f x = (g) [x, \"é\"] :: T\n" ++
  "  where g = \\y -> if y `h` 1 then - y else ((y))\n" ++
  "        h :: (Int)\n" ++
  "f = do"

theorem nestingText_nested :
    ∃ tree, parseSource nestingText = .ok tree ∧ tree.span = ⟨0, 118⟩ ∧
      tree.decls.map (·.span) = [⟨19, 112⟩, ⟨112, 118⟩] ∧
      tree.Between (boundary nestingText) 0 118 := by
  have hcheck : ((parseSource nestingText).toOption.map fun tree =>
      (tree.span, tree.decls.map (·.span))) = some (⟨0, 118⟩, [⟨19, 112⟩, ⟨112, 118⟩]) := by
    decide +kernel
  obtain ⟨tree, htree, hspans⟩ := Option.map_eq_some_iff.mp hcheck
  obtain ⟨hspan, hdecls⟩ := Prod.mk.inj hspans
  exact ⟨tree, ok_of_toOption htree, hspan, hdecls, spans_nest (ok_of_toOption htree)⟩

end Lamina
