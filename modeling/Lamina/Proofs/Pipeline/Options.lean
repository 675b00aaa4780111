import Lamina.Proofs.Core.Strict
import Lamina.Proofs.Flat.Widening
import Lamina.Proofs.Pipeline.Stages

/-!
# Options of lowering

Options of lowering say where operators come from: the prelude may bind them, and an operator that
nothing binds may be an error or name an intrinsic all the same. They have no say in what a program
means.
-/

namespace Lamina

open Flat (Program convert outlineOf)
open Machine (run)

/-- Two modules mean the same: they are made into programs together, and the programs run alike
under every limit on nested calls, however intrinsics are called in the one and in the other. -/
structure SameMeaning (m m' : Core.Module) : Prop where
  converts : ∀ direct direct' : Bool,
    (∃ p, (convert direct m).1 = .ok p) ↔ ∃ p', (convert direct' m').1 = .ok p'
  runs : ∀ {direct direct' p p'}, (convert direct m).1 = .ok p →
    (convert direct' m').1 = .ok p' → ∀ limit, (run limit p).1 = (run limit p').1

theorem convert_ok_iff {m} (shaped : m.Shaped) (direct : Bool) :
    (∃ p, (convert direct m).1 = .ok p) ↔ ∃ o, outlineOf m = .ok o := by
  rw [Flat.convert_eq shaped]
  cases outlineOf m <;> simp [Except.map]

/-- Modules that differ in the operators of the prelude mean the same. -/
theorem sameMeaning_of_operators (options : Core.LowerOptions) {tree}
    (hformed : Surface.FormedDecls tree.decls) {slim wide}
    (hwide : (Core.lowerModule { options with preludeOperators := true } tree).1 = .ok wide)
    (hslim : (Core.lowerModule { options with preludeOperators := false } tree).1 = .ok slim) :
    SameMeaning wide slim := by
  have haccepts := (Core.lowerModule_accepts _ hformed).mp ⟨slim, hslim⟩
  obtain ⟨_, hbuilt, hentry⟩ := Core.lowerModule_built hformed hslim
  obtain ⟨_, hbuilt', hentry'⟩ := Core.lowerModule_built hformed hwide
  obtain ⟨bound, htwins, hdefinitions⟩ :=
    Core.twins_of_operators hbuilt hbuilt' haccepts.1.1 (hentry.trans hentry'.symm)
  have regular := Flat.regular_of_lowerModule hformed hslim
  have regular' := Flat.regular_of_lowerModule hformed hwide
  constructor
  · intro direct direct'
    rw [convert_ok_iff regular'.shaped, convert_ok_iff regular.shaped]
    exact (Flat.outlineOf_twins_iff htwins regular regular').symm
  · intro direct direct' p p' hp hp' limit
    rw [Flat.convert_eq regular'.shaped] at hp
    rw [Flat.convert_eq regular.shaped] at hp'
    obtain ⟨o', ho', rfl⟩ := ok_of_map hp
    obtain ⟨o, ho, rfl⟩ := ok_of_map hp'
    obtain ⟨htable, hrun⟩ := Flat.run_widened htwins hdefinitions regular regular' ho ho'
    obtain ⟨number, _, hnumber⟩ := Flat.exists_numbers o.table_distinct
    obtain ⟨_, _, hcovers⟩ := Flat.outlineOf_covers ho
    obtain ⟨_, _, hcovers'⟩ := Flat.outlineOf_covers ho'
    rw [Flat.run_assemble (htable ▸ hnumber) hcovers'.mentions_scope,
      Flat.run_assemble hnumber hcovers.mentions_scope, hrun]

/-- **Options of lowering never change what a program means.** Whatever is lowered strictly is
lowered to the same module otherwise. If operators that nothing binds name intrinsics, a text is
lowered with operators in the prelude if and only if it is lowered without them, and the two modules
mean the same. -/
theorem lowering_options_keep_meaning (options : Core.LowerOptions) (source : String) :
    (∀ m, (lowerSource { options with strict := true } source).result = .ok m →
      (lowerSource { options with strict := false } source).result = .ok m) ∧
    ((∃ m, (lowerSource { options with strict := false, preludeOperators := true }
        source).result = .ok m) ↔
      ∃ m', (lowerSource { options with strict := false, preludeOperators := false }
        source).result = .ok m') ∧
    ∀ m m', (lowerSource { options with strict := false, preludeOperators := true }
        source).result = .ok m →
      (lowerSource { options with strict := false, preludeOperators := false }
        source).result = .ok m' → SameMeaning m m' := by
  cases htree : parseSource source with
  | error e =>
    have hfails : ∀ options m, (lowerSource options source).result ≠ .ok m := by
      intro options m hm
      obtain ⟨tree, hok, _⟩ := lowerSource_ok hm
      rw [htree] at hok
      cases hok
    refine ⟨fun m hm => absurd hm (hfails _ m), ⟨?_, ?_⟩, fun m _ hm => absurd hm (hfails _ m)⟩
    · rintro ⟨m, hm⟩
      exact absurd hm (hfails _ m)
    · rintro ⟨m, hm⟩
      exact absurd hm (hfails _ m)
  | ok tree =>
    have hformed := parseSource_formed htree
    simp only [lowerSource_ok_iff htree]
    refine ⟨fun m => Core.Lowering.lowerModule_of_strict options, ?_,
      fun m m' => sameMeaning_of_operators { options with strict := false } hformed⟩
    rw [Core.lowerModule_accepts _ hformed, Core.lowerModule_accepts _ hformed]
    exact Core.acceptsModule_operators { options with strict := false } rfl

/-- A text in which operators stand between operands, are passed on, and are given names. -/
def operatorText : String :=
  "twice f x = f x x\n" ++
  "plus = (+)\n" ++
  "main = let times = (*) in if twice plus 3 == 6 then twice times 2 - 1 else 0"

/-- The text is lowered strictly with operators in the prelude, so it is lowered without them, and
the program without them says the same. -/
theorem operatorText_keeps_meaning :
    ∃ m m' p p', (lowerSource { strict := true } operatorText).result = .ok m ∧
      (lowerSource {} operatorText).result = .ok m ∧
      (lowerSource { preludeOperators := false } operatorText).result = .ok m' ∧
      (convert true m).1 = .ok p ∧ (convert false m').1 = .ok p' ∧
      (∀ limit, (run limit p).1 = (run limit p').1) ∧
      (run 2 p').1.toOption.map (·.transcript) = some "3\n" := by
  have hcheck : ((lowerSource { strict := true } operatorText).result.toOption.bind fun m =>
      (convert true m).1.toOption.bind fun p =>
        (run 2 p).1.toOption.map (·.transcript)) = some "3\n" := by
    decide +kernel
  obtain ⟨m, hm, hcheck⟩ := Option.bind_eq_some_iff.mp hcheck
  obtain ⟨p, hp, htranscript⟩ := Option.bind_eq_some_iff.mp hcheck
  obtain ⟨hstrict, hiff, hsame⟩ := lowering_options_keep_meaning {} operatorText
  have hwide := hstrict m (ok_of_toOption hm)
  obtain ⟨m', hslim⟩ := hiff.mp ⟨m, hwide⟩
  have same := hsame m m' hwide hslim
  obtain ⟨p', hp'⟩ := (same.converts true false).mp ⟨p, ok_of_toOption hp⟩
  have hruns := same.runs (ok_of_toOption hp) hp'
  exact ⟨m, m', p, p', ok_of_toOption hm, hwide, hslim, ok_of_toOption hp, hp', hruns,
    hruns 2 ▸ htranscript⟩

end Lamina
