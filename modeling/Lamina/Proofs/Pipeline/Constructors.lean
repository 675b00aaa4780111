import Lamina.Proofs.Pipeline.Safety

/-!
# Constructors in compiled programs

The instructions of a program have numbers for constructors. In a program that was compiled from a
text the numbers tell the constructors apart, so comparing values compares names.
-/

namespace Lamina

open Flat (Program Plan Var ConvertState Conversion.node)
open Machine (Value exec callIntrinsic)

/-- The value of a constructor in a run: what an instruction sets for it, or what an intrinsic gives
back as the unit value. -/
def ConstructorValue (p : Program) (name : String) (v : Value) : Prop :=
  (∃ dst tag, .con dst tag name ∈ p.walk ∧
    ∀ invoke frame, exec p invoke (.con dst tag name) frame = pure ((dst, v) :: frame)) ∨
  name = "()" ∧ v = .unit

/-- A value has the tag of its constructor. -/
theorem ConstructorValue.tag {p name v} (h : ConstructorValue p name v) :
    ∃ tag, v = .con tag [] ∧ ((∃ dst, .con dst tag name ∈ p.walk) ∨ tag = 0 ∧ name = "()") := by
  rcases h with ⟨dst, tag, hmem, hexec⟩ | ⟨rfl, rfl⟩
  · refine ⟨tag, ?_, .inl ⟨dst, hmem⟩⟩
    have hstart := congrFun (hexec (fun _ _ => pure .unit) []) .start
    cases hstart
    rfl
  · exact ⟨0, rfl, .inr ⟨rfl, rfl⟩⟩

/-- **Tags identify constructors.** In a compiled program two constructors have the same tag if and
only if they have the same name; the unit value has tag zero, and the others are counted from one in
the order in which the instructions first have them. Truth values are no constructors but the
integers one and zero. So two values of constructors are equal in a run if and only if they have the
same name. -/
theorem compiled_tags_identify {options : CompileOptions} {source : String} {p : Program}
    (hp : (flattenSource options source).result = .ok p) :
    p.Tagged ∧
    (∀ dst tag, .con dst tag "True" ∉ p.walk ∧ .con dst tag "False" ∉ p.walk) ∧
    (∀ (plan : Plan) scope fuel inlining id dst (st : ConvertState),
      (plan.module.kind id = .constructor "True" →
        Conversion.node plan scope (fuel + 1) inlining id dst st = .ok ([.int dst 1], st)) ∧
      (plan.module.kind id = .constructor "False" →
        Conversion.node plan scope (fuel + 1) inlining id dst st = .ok ([.int dst 0], st))) ∧
    ∀ name name' v v', ConstructorValue p name v → ConstructorValue p name' v' →
      callIntrinsic .eq [v, v'] = .ok (.int (if name = name' then 1 else 0), "") := by
  obtain ⟨m, o, _, _, _, rfl⟩ := flattenSource_assembled hp
  have htagged := Flat.assemble_tagged options.direct m o
  refine ⟨htagged, fun dst tag => ?_, fun plan scope fuel inlining id dst st => ?_, ?_⟩
  · -- a name that is met is the unit value's or in the table, and truth values are in no table
    have hnot : ∀ {name}, .con dst tag name ∈ (o.assemble options.direct m ⟨0, []⟩).1.walk →
        name = "()" ∨ ¬ Flat.BuiltIn name := by
      intro name hmem
      cases tag with
      | zero => exact .inl ((htagged.unit hmem).mp rfl)
      | succ i =>
        exact .inr (htagged.not_builtIn name (List.mem_of_getElem? (htagged.place hmem)))
    exact ⟨fun hmem => by simpa [Flat.BuiltIn] using hnot hmem,
      fun hmem => by simpa [Flat.BuiltIn] using hnot hmem⟩
  · constructor <;> intro hkind <;> rw [Conversion.node, hkind] <;> rfl
  · intro name name' v v' hv hv'
    obtain ⟨tag, rfl, hname⟩ := hv.tag
    obtain ⟨tag', rfl, hname'⟩ := hv'.tag
    have hsame : tag = tag' ↔ name = name' := by
      rcases hname with ⟨dst, hmem⟩ | ⟨rfl, rfl⟩ <;> rcases hname' with ⟨dst', hmem'⟩ | ⟨rfl, rfl⟩
      · exact htagged.same hmem hmem'
      · exact htagged.unit hmem
      · rw [eq_comm, htagged.unit hmem', eq_comm]
      · exact iff_of_true rfl rfl
    by_cases heq : name = name'
    · rw [if_pos heq, hsame.mpr heq]
      simp [callIntrinsic, Intrinsic.arity, Machine.Primitive.binary, Machine.Primitive.equal,
        Value.ofBool]
    · have hne : tag ≠ tag' := mt hsame.mp heq
      rw [if_neg heq]
      simp [callIntrinsic, Intrinsic.arity, Machine.Primitive.binary, Machine.Primitive.equal,
        Value.ofBool, hne]

/-- A text with two constructors, truth values and the unit value. -/
def coloursText : String :=
  "pick b = if b then Red else Blue\n" ++
  "main = if pick True == Red then pick False else ()"

/-- The function has the two constructors first, so the comparison finds the tag of the first. -/
theorem coloursText_tags :
    ∃ p, (flattenSource {} coloursText).result = .ok p ∧ p.constructors = ["Red", "Blue"] ∧
      p.Tagged ∧ (∃ dst, .con dst 1 "Red" ∈ p.walk) ∧ (∃ dst, .con dst 2 "Blue" ∈ p.walk) ∧
      ∀ dst tag, .con dst tag "True" ∉ p.walk := by
  have hcheck : ((flattenSource {} coloursText).result.toOption.map fun p => p.constructors) =
      some ["Red", "Blue"] := by
    decide +kernel
  obtain ⟨p, hp, hconstructors⟩ := Option.map_eq_some_iff.mp hcheck
  obtain ⟨htagged, htruth, _⟩ := compiled_tags_identify (ok_of_toOption hp)
  exact ⟨p, ok_of_toOption hp, hconstructors, htagged,
    htagged.used (by rw [hconstructors]; rfl), htagged.used (by rw [hconstructors]; rfl),
    fun dst tag => (htruth dst tag).1⟩

end Lamina
