import Lamina.Proofs.Flat.Tables
import Lamina.Proofs.Pipeline.Stages

/-!
# Compiled programs have consistent tables

The arity of a function is computed in several places: for the function itself, for each closure of
it, for its global slot and for each call of an intrinsic. In a program that was compiled from a
text they agree.
-/

namespace Lamina

open Flat (Program functionNames)

/-- **Compiled programs have consistent tables.** Functions stand where their ids say, the top-level
ones first and in the order of the text, then the lifted ones by their numbers; each top-level
function has the global slot of its place and captures nothing; and every instruction, however deep
in branches, refers to functions and slots that are there and states their arity. -/
theorem compiled_tables_consistent {options : CompileOptions} {source : String} {p : Program}
    (hp : (flattenSource options source).result = .ok p) :
    ∃ tree, parseSource source = .ok tree ∧ p.Consistent (functionNames tree.decls) := by
  rw [flattenSource_outline] at hp
  obtain ⟨m, hm, hp⟩ := ok_of_bind hp
  obtain ⟨o, ho, rfl⟩ := ok_of_map hp
  obtain ⟨tree, htree, hm⟩ := lowerSource_ok hm
  have hformed := parseSource_formed htree
  obtain ⟨_, hlowered, _⟩ := Core.lowerModule_ok hformed hm
  have ho := ok_of_mapError ho
  unfold Flat.outlineOf at ho
  split at ho
  · cases ho
  · exact ⟨tree, htree, Flat.assemble_consistent (Flat.regular_of_lowerModule hformed hm) hlowered ho
      options.direct⟩

/-- A text with functions of three kinds, one of them the value of a `let`, between other
definitions; closures with captures and of intrinsics stand in branches. -/
def tablesText : String :=
  "twice f x = f (f x)\n" ++
  "limit = 10\n" ++
  "pick = let low = 2 in \\a b -> if a <= low then \\c -> a + c else (if b then twice else negate)\n" ++
  "main = twice (\\y -> y * limit) (pick 1 True 3)"

/-- The text has two top-level functions, and two lambdas are lifted out of it. -/
theorem tablesText_consistent :
    ∃ tree p, parseSource tablesText = .ok tree ∧
      (flattenSource {} tablesText).result = .ok p ∧ functionNames tree.decls = ["twice", "pick"] ∧
      p.functions.toList.map (·.arity) = [2, 2, 2, 1] ∧
      p.Consistent (functionNames tree.decls) := by
  have hcheck : ((parseSource tablesText).toOption.bind fun tree =>
      (flattenSource {} tablesText).result.toOption.map fun p =>
        (functionNames tree.decls, p.functions.toList.map (·.arity))) =
      some (["twice", "pick"], [2, 2, 2, 1]) := by
    decide +kernel
  obtain ⟨tree, htree, hcheck⟩ := Option.bind_eq_some_iff.mp hcheck
  obtain ⟨p, hp, hcheck⟩ := Option.map_eq_some_iff.mp hcheck
  obtain ⟨hnames, harities⟩ := Prod.mk.inj hcheck
  obtain ⟨tree', htree', hconsistent⟩ := compiled_tables_consistent (ok_of_toOption hp)
  cases (ok_of_toOption htree).symm.trans htree'
  exact ⟨tree, p, ok_of_toOption htree, ok_of_toOption hp, hnames, harities, hconsistent⟩

end Lamina
