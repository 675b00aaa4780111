import Lamina.Proofs.Core.Violations
import Lamina.Proofs.Flat.CName
import Lamina.Proofs.Pipeline.Stages

/-!
# Compiled programs have unambiguous C names

The C text of a program has names for its functions, for the fields of its globals and for its
variables. In a program that was compiled from a text no two of them are mixed up, and none of them
is mixed up with a name of the runtime.
-/

namespace Lamina

open Flat (Program Var mangle isWordChar isIdentifier)

/-- **C names are unambiguous.** Different names stay different when they are mangled, and only
letters, digits and underscores are left of them. In a compiled program the functions have different
symbols, which neither the runtime nor the fixed part of the C text uses, and the globals have
different fields. Different variables have different texts, none of which a function could have. All
these names are identifiers of C. -/
theorem compiled_names_unambiguous {options : CompileOptions} {source : String} {p : Program}
    (hp : (flattenSource options source).result = .ok p) :
    (Function.Injective mangle ∧ ∀ name, ∀ c ∈ (mangle name).toList, isWordChar c) ∧
      p.WellNamed ∧
      Function.Injective Var.text ∧
      ∀ x : Var, isIdentifier x.text ∧ ¬ "lz_".toList <+: x.text.toList := by
  refine ⟨⟨Flat.mangle_injective, fun _ _ => Flat.isWordChar_of_mem_mangle⟩, ?_,
    Flat.text_injective, fun x => ⟨Flat.isIdentifier_text x, Flat.text_start x⟩⟩
  rw [flattenSource_outline] at hp
  obtain ⟨m, hm, hp⟩ := ok_of_bind hp
  obtain ⟨o, ho, rfl⟩ := ok_of_map hp
  obtain ⟨tree, htree, hm⟩ := lowerSource_ok hm
  have hformed := parseSource_formed htree
  obtain ⟨_, hlowered, _⟩ := Core.lowerModule_ok hformed hm
  have hdecls : (Core.declNames tree.decls).Nodup :=
    ((Core.lowerModule_accepts _ hformed).mp ⟨m, hm⟩).1.1
  have hnames : ((Flat.globalsOf m).map (·.2)).Nodup := by
    rw [Flat.globalsOf_names hlowered]
    exact hdecls.sublist (Flat.functionNames_sublist _)
  have ho := ok_of_mapError ho
  unfold Flat.outlineOf at ho
  split at ho
  · cases ho
  · exact Flat.assemble_wellNamed ho hnames options.direct m

/-- A text whose names come close to each other once they are mangled: the code of a prime is part
of another name, and one name is like that of a lifted function. -/
def namesText : String :=
  "f' x = x\n" ++
  "f_27 x = \\y -> x\n" ++
  "f__27 x = x\n" ++
  "fé x = x\n" ++
  "anon_0 é = fé é\n" ++
  "main = anon_0 (f' (f_27 1 2))"

theorem namesText_unambiguous :
    ∃ p, (flattenSource {} namesText).result = .ok p ∧
      p.functions.toList.map (·.symbol) =
        ["lz_fn_f_27", "lz_fn_f__27", "lz_fn_f____27", "lz_fn_f_c3_a9", "lz_fn_anon__0",
          "lz_anon_0"] ∧
      p.WellNamed := by
  have hcheck : ((flattenSource {} namesText).result.toOption.map fun p =>
      p.functions.toList.map (·.symbol)) =
      some ["lz_fn_f_27", "lz_fn_f__27", "lz_fn_f____27", "lz_fn_f_c3_a9", "lz_fn_anon__0",
          "lz_anon_0"] := by
    decide +kernel
  obtain ⟨p, hp, hsymbols⟩ := Option.map_eq_some_iff.mp hcheck
  exact ⟨p, ok_of_toOption hp, hsymbols, (compiled_names_unambiguous (ok_of_toOption hp)).2.1⟩

end Lamina
