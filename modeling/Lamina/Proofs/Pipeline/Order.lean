import Lamina.Proofs.Flat.Mirror
import Lamina.Proofs.Pipeline.Options

/-!
# The order of declarations

The declarations of a block, that of the module or that of a `let` or a `where`, may use one another
whatever their order. So the order has no say in whether a module can be lowered and made into a
program, and none in what the program does: only the numbers of constructors depend on it.
-/

namespace Lamina

open Lamina.Core (lowerModule)
open Flat (Program convert outlineOf BuiltIn)
open Machine (run)

section

variable {options : Core.LowerOptions} {tree tree' : Surface.Module} {m m' : Core.Module}

theorem converts_of_reordered (hreordered : tree.Reordered tree')
    (hformed : Surface.FormedDecls tree.decls) (hm : (lowerModule options tree).1 = .ok m)
    (hm' : (lowerModule options tree').1 = .ok m') (direct direct' : Bool) :
    (∃ p, (convert direct m).1 = .ok p) ↔ ∃ p', (convert direct' m').1 = .ok p' := by
  have regular := Flat.regular_of_lowerModule hformed hm
  have regular' := Flat.regular_of_lowerModule (hreordered.formed hformed) hm'
  obtain ⟨R, htwins⟩ :=
    Core.twins_of_reordered (C := fun _ => True) hreordered hformed (fun _ _ => trivial) hm hm'
  rw [convert_ok_iff regular.shaped, convert_ok_iff regular'.shaped]
  exact Flat.outlineOf_twins_iff htwins regular regular'

theorem runs_of_reordered (hreordered : tree.Reordered tree')
    (hformed : Surface.FormedDecls tree.decls)
    (hcon : ∀ name ∈ Surface.declConstructors tree.decls, BuiltIn name)
    (hm : (lowerModule options tree).1 = .ok m) (hm' : (lowerModule options tree').1 = .ok m')
    {direct direct' p p'} (hp : (convert direct m).1 = .ok p)
    (hp' : (convert direct' m').1 = .ok p') (limit : Nat) :
    (run limit p).1.map (·.transcript) = (run limit p').1.map (·.transcript) := by
  have regular := Flat.regular_of_lowerModule hformed hm
  have regular' := Flat.regular_of_lowerModule (hreordered.formed hformed) hm'
  obtain ⟨R, htwins⟩ := Core.twins_of_reordered hreordered hformed hcon hm hm'
  rw [Flat.convert_eq regular.shaped] at hp
  rw [Flat.convert_eq regular'.shaped] at hp'
  obtain ⟨o, ho, rfl⟩ := ok_of_map hp
  obtain ⟨o', ho', rfl⟩ := ok_of_map hp'
  obtain ⟨entry, entry', hmirrored⟩ := Flat.mirrored_of_twins htwins regular regular' ho ho'
  -- each program has a table of constructors of its own, but the unit value has one number
  obtain ⟨number, _, hnumber⟩ := Flat.exists_numbers o.table_distinct
  obtain ⟨number', _, hnumber'⟩ := Flat.exists_numbers o'.table_distinct
  rw [Flat.run_assemble hnumber hmirrored.covers.mentions_scope,
    Flat.run_assemble hnumber' hmirrored.covers'.mentions_scope]
  refine hmirrored.run (fun name hname => ?_) limit
  rcases hname with rfl | rfl | rfl
  · rfl
  · rfl
  · simp only [Flat.conValue, hnumber.unit, hnumber'.unit]

end

/-- **The order of declarations does not matter.** If the declarations in the blocks of a text are
put into another order, the module can be lowered if and only if it could be before, and the lowered
module can be made into a program if and only if the other can. If there are no constructors but
truth values and the unit value, the two programs give the same transcript or fail with the same
error, under every limit on nested calls. -/
theorem declaration_order_keeps_meaning (options : Core.LowerOptions) {source : String}
    {tree tree' : Surface.Module} (hparse : parseSource source = .ok tree)
    (hreordered : tree.Reordered tree') :
    ((∃ m, (lowerModule options tree).1 = .ok m) ↔
      ∃ m', (lowerModule options tree').1 = .ok m') ∧
    ∀ m m', (lowerModule options tree).1 = .ok m → (lowerModule options tree').1 = .ok m' →
      ∀ direct direct' : Bool,
        ((∃ p, (convert direct m).1 = .ok p) ↔ ∃ p', (convert direct' m').1 = .ok p') ∧
        ((∀ name ∈ Surface.declConstructors tree.decls, BuiltIn name) →
          ∀ p p', (convert direct m).1 = .ok p → (convert direct' m').1 = .ok p' →
            ∀ limit, (run limit p).1.map (·.transcript) = (run limit p').1.map (·.transcript)) := by
  have hformed := parseSource_formed hparse
  refine ⟨?_, fun m m' hm hm' direct direct' => ⟨?_, fun hcon p p' hp hp' => ?_⟩⟩
  · rw [Core.lowerModule_accepts options hformed,
      Core.lowerModule_accepts options (hreordered.formed hformed)]
    exact Core.acceptsModule_reordered hreordered
  · exact converts_of_reordered hreordered hformed hm hm' direct direct'
  · exact runs_of_reordered hreordered hformed hcon hm hm' hp hp'

/-- A text in which names are used before they are declared, in both kinds of blocks. -/
def forwardText : String :=
  "main = f 3 True\n" ++
  "f n b = if n == 0 then b else g () where\n" ++
  "  g u = f m (b == False)\n" ++
  "  m = n - 1"

/-- The text is read; with all its blocks in reverse it is lowered and made into a program too, which
says the same. -/
theorem forwardText_keeps_meaning :
    ∃ tree m m' p p', parseSource forwardText = .ok tree ∧ tree.Reordered tree.reversed ∧
      (lowerModule {} tree).1 = .ok m ∧ (lowerModule {} tree.reversed).1 = .ok m' ∧
      (convert true m).1 = .ok p ∧ (convert true m').1 = .ok p' ∧
      (∀ limit, (run limit p).1.map (·.transcript) = (run limit p').1.map (·.transcript)) ∧
      (run 7 p').1.map (·.transcript) = .ok "0\n" := by
  have hcheck : ((parseSource forwardText).toOption.bind fun tree =>
      if Surface.declConstructors tree.decls = ["True", "False", "()"] then
        (lowerModule {} tree).1.toOption.bind fun m =>
          (convert true m).1.toOption.bind fun p => ((run 7 p).1.map (·.transcript)).toOption
      else none) = some "0\n" := by
    decide +kernel
  obtain ⟨tree, htree, hcheck⟩ := Option.bind_eq_some_iff.mp hcheck
  rw [ite_eq_iff] at hcheck
  obtain ⟨hcon, hcheck⟩ := hcheck.resolve_right (by simp)
  obtain ⟨m, hm, hcheck⟩ := Option.bind_eq_some_iff.mp hcheck
  obtain ⟨p, hp, htranscript⟩ := Option.bind_eq_some_iff.mp hcheck
  obtain ⟨hlowers, hsame⟩ := declaration_order_keeps_meaning {} (ok_of_toOption htree)
    tree.reordered_reversed
  obtain ⟨m', hm'⟩ := hlowers.mp ⟨m, ok_of_toOption hm⟩
  obtain ⟨hconverts, hruns⟩ := hsame m m' (ok_of_toOption hm) hm' true true
  obtain ⟨p', hp'⟩ := hconverts.mp ⟨p, ok_of_toOption hp⟩
  have hruns := hruns (by simp [hcon, BuiltIn]) p p' (ok_of_toOption hp) hp'
  exact ⟨tree, m, m', p, p', ok_of_toOption htree, tree.reordered_reversed, ok_of_toOption hm, hm',
    ok_of_toOption hp, hp', hruns, hruns 7 ▸ ok_of_toOption htranscript⟩

end Lamina
