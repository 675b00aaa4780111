import Lamina.Proofs.Flat.Simulation
import Lamina.Proofs.Pipeline.Stages

/-!
# Conversion preserves meaning

A module that is converted to a flat program is run as the graph says: where the reference
evaluation of the entry finishes, the program ends in the same way.
-/

namespace Lamina

open Flat (Program Corresponds convert maxArity outlineOf)
open Machine (run)

/-- **Conversion preserves meaning.** The constructors of the program are told apart by their
numbers. Wherever the evaluation of the entry finishes with no more calls nested than the limit
allows, the program writes the same text and ends with the corresponding value, or fails with the
same error. -/
theorem conversion_preserves_meaning {source : String} {tree : Surface.Module}
    {options : Core.LowerOptions} {m : Core.Module} {direct : Bool} {p : Program}
    (htree : parseSource source = .ok tree) (hm : (Core.lowerModule options tree).1 = .ok m)
    (hp : (convert direct m).1 = .ok p) (harity : ∀ f ∈ p.functions, f.arity ≤ maxArity) :
    (∃ number, Function.Injective number ∧ p.NumberedBy number) ∧
      ∃ entry, m.definition? m.entry = some entry ∧
        ∀ number, p.NumberedBy number → ∀ limit fuel out,
          (∀ v, Core.eval m number fuel limit [] entry "" = some (.ok v, out) →
            ∃ w, (run limit p).1 = .ok ⟨out, w⟩ ∧ Corresponds m number v w) ∧
          ∀ e, Core.eval m number fuel limit [] entry "" = some (.error e, out) →
            (run limit p).1 = .error e := by
  have hshaped := (Core.lowerModule_ok (parseSource_formed htree) hm).1
  rw [Flat.convert_eq hshaped] at hp
  obtain ⟨o, ho, rfl⟩ := ok_of_map hp
  obtain ⟨entry, hentry, hcovers⟩ := Flat.outlineOf_covers ho
  obtain ⟨number, hinjective, hnumbers⟩ := Flat.exists_numbers o.table_distinct
  refine ⟨⟨number, hinjective, (Flat.numberedBy_assemble_iff direct m).mpr hnumbers⟩, entry,
    hentry, ?_⟩
  -- any numbering that the program follows agrees with the table, so it will do
  intro number hnumbered limit fuel out
  have hnumbers := (Flat.numberedBy_assemble_iff direct m).mp hnumbered
  have hruns : o.Runs (Flat.planOf m false).1 number entry := {
    covers := hcovers
    shaped := hshaped
    settled := Flat.planOf_settled m false
    unit := hnumbers.unit
    arity_le := by
      intro r hr
      obtain ⟨f, hf, hlen⟩ := Flat.function_of_routine direct m hr
      exact hlen ▸ harity f hf }
  obtain ⟨hvalue, herror⟩ := hruns.run_eq limit fuel
  rw [Flat.run_assemble hnumbers hcovers.mentions_scope]
  constructor
  · intro v heval
    obtain ⟨w, hw, hrep⟩ := hvalue v out heval
    exact ⟨w, hw, hrep.corresponds⟩
  · intro e heval
    exact herror e out heval

/-- A text with a local function that captures a parameter and calls itself, and a call that prints.
-/
def recursionText : String :=
  "pick x = let down y = if y == 0 then x else down (y - 1) in down\n" ++
  "main = (\\u -> pick Done 2) (putStrLn \"hi\")"

/-- The text prints a line, and then its value is the only constructor it has. -/
theorem recursionText_preserves_meaning :
    ∃ tree m p entry number, parseSource recursionText = .ok tree ∧
      (Core.lowerModule {} tree).1 = .ok m ∧ (convert true m).1 = .ok p ∧
      (∀ f ∈ p.functions, f.arity ≤ maxArity) ∧ m.definition? m.entry = some entry ∧
      p.NumberedBy number ∧ number "Done" = 1 ∧
      Core.eval m number 30 5 [] entry "" = some (.ok (.con "Done"), "hi\n") ∧
      (run 5 p).1 = .ok ⟨"hi\n", .con 1 []⟩ := by
  let number : String → Nat := fun name => if name = "()" then 0 else 1
  have hcheck : ((parseSource recursionText).toOption.bind fun tree =>
      (Core.lowerModule {} tree).1.toOption.bind fun m =>
      (convert true m).1.toOption.bind fun p =>
      (m.definition? m.entry).bind fun entry =>
      if (∀ f ∈ p.functions, f.arity ≤ maxArity) ∧ p.NumberedBy number then
        (Core.eval m number 30 5 [] entry).answer?.bind fun answer =>
        answer.1.con?.map (·, answer.2)
      else none) = some ("Done", "hi\n") := by
    decide +kernel
  obtain ⟨tree, htree, hcheck⟩ := Option.bind_eq_some_iff.mp hcheck
  obtain ⟨m, hm, hcheck⟩ := Option.bind_eq_some_iff.mp hcheck
  obtain ⟨p, hp, hcheck⟩ := Option.bind_eq_some_iff.mp hcheck
  obtain ⟨entry, hentry, hcheck⟩ := Option.bind_eq_some_iff.mp hcheck
  obtain ⟨⟨harity, hnumbered⟩, hcheck⟩ := Option.ite_none_right_eq_some.mp hcheck
  obtain ⟨⟨v, out⟩, heval, hcheck⟩ := Option.bind_eq_some_iff.mp hcheck
  obtain ⟨name, hcon, heq⟩ := Option.map_eq_some_iff.mp hcheck
  cases heq
  obtain rfl := Reference.Value.eq_con_of_con? hcon
  have heval := Reference.EvalM.eq_of_answer? heval
  have hmeaning := conversion_preserves_meaning (ok_of_toOption htree) (ok_of_toOption hm)
    (ok_of_toOption hp) harity
  obtain ⟨_, entry', hentry', hruns⟩ := hmeaning
  obtain rfl : entry = entry' := Option.some.inj (hentry.symm.trans hentry')
  obtain ⟨w, hrun, rfl⟩ := (hruns number hnumbered 5 30 "hi\n").1 _ heval
  exact ⟨tree, m, p, entry, number, ok_of_toOption htree, ok_of_toOption hm, ok_of_toOption hp,
    harity, hentry, hnumbered, rfl, heval, hrun⟩

end Lamina
