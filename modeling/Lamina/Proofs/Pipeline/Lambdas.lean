import Lamina.Proofs.Flat.Failure
import Lamina.Proofs.Flat.Tables
import Lamina.Proofs.Pipeline.Stages

/-!
# The lambdas of a text become functions

Which lambdas of a lowered text are lifted, in which order they are found, and how they stand in the
program next to the top-level functions.
-/

namespace Lamina

namespace Flat

open Lamina.Core (NodeId Module)

/-- The number of a lifted function. -/
def FunctionKind.number? : FunctionKind → Option Nat
  | .named _ => none
  | .lifted index _ => some index

/-- A function of a program and the lambda that it is made from. A top-level function has the name
of its definition, a lifted one the number of its lambda. -/
structure FunctionOf (p : Plan) (id : NodeId) (f : Function) : Prop where
  captures : f.captures = (p.captures.of id).map (Conversion.paramVar p.module)
  params : f.params = (p.module.params id).map (Conversion.paramVar p.module)
  kind : (∃ name, (name, id) ∈ p.module.definitions ∧ f.kind = .named name) ∨
    ∃ index, p.lifted[index]? = some id ∧ f.kind = .lifted index (p.module.graph.name id)

/-- The lambdas of a module that become functions. -/
def lambdasOf (m : Module) : Set NodeId :=
  {id | isLambda (m.kind id) = true ∧ m.isDefinition id = true} ∪
    {id | id ∈ liftedOf m (globalsOf m)}

section

variable {m : Module} {entry : NodeId} {o : Outline} {id : NodeId} {i : Nat}

theorem mem_nodes_iff : id ∈ (planOf m false).1.nodes ↔ id ∈ lambdasOf m := by
  rw [Plan.nodes, List.mem_append]
  exact or_congr (mem_globals_iff.trans and_comm) Iff.rfl

/-- Each lambda that becomes a function stands at its place. -/
theorem nodes_function? (hid : id ∈ lambdasOf m) :
    (planOf m false).1.nodes[((planOf m false).1.function? id).getD 0]? = some id := by
  obtain ⟨i, hi⟩ := exists_lastIndex (mem_nodes_iff.mpr hid)
  rw [show (planOf m false).1.function? id = some i from hi]
  exact getElem_of_lastIndex hi

/-- The numbers of the lifted functions count them. -/
theorem parts_numbers (p : Plan) :
    (p.parts.map (·.2.1)).filterMap FunctionKind.number? = List.range p.lifted.length := by
  have hnamed : ∀ names : List String,
      (names.map FunctionKind.named).filterMap FunctionKind.number? = [] := by
    intro names
    rw [List.filterMap_map]
    exact List.filterMap_eq_nil_iff.mpr fun _ _ => rfl
  rw [Plan.parts_kind, List.filterMap_append, hnamed, List.nil_append, List.filterMap_map]
  show List.filterMap (some ∘ Prod.snd) _ = _
  rw [List.filterMap_eq_map, List.zipIdx_map_snd, List.length_map, List.range_eq_range']

theorem parts_kind_of_node {p : Plan} {part} (hglobals : p.globals = globalsOf p.module)
    (h : p.parts[i]? = some part) :
    (∃ name, (name, part.1) ∈ p.module.definitions ∧ part.2.1 = .named name) ∨
      ∃ index, p.lifted[index]? = some part.1 ∧
        part.2.1 = .lifted index (p.module.graph.name part.1) := by
  have hmem := List.mem_of_getElem? h
  unfold Plan.parts at hmem
  rcases List.mem_append.mp hmem with hglobal | hlifted
  · obtain ⟨⟨id, name⟩, hnamed, rfl⟩ := List.mem_map.mp hglobal
    rw [hglobals, globalsOf_eq] at hnamed
    obtain ⟨binding, hbinding, heq⟩ := List.mem_map.mp hnamed
    cases heq
    exact .inl ⟨_, List.mem_of_mem_filter hbinding, rfl⟩
  · obtain ⟨⟨id, index⟩, hnumbered, rfl⟩ := List.mem_map.mp hlifted
    have hindex : p.lifted[index]? = some id := List.mem_zipIdx_iff_getElem?.mp hnumbered
    exact .inr ⟨index, hindex, rfl⟩

/-- Each function of an assembled program is made from the lambda at its place. -/
theorem assemble_functionOf (h : (planOf m false).1.outline entry = .ok o) (direct : Bool)
    (hi : (planOf m false).1.nodes[i]? = some id) :
    ∃ f, (o.assemble direct m ⟨0, []⟩).1.functions[i]? = some f ∧
      FunctionOf (planOf m false).1 id f := by
  have hroutines := (Plan.outline_covers h).routines
  obtain ⟨hlt, heq⟩ := List.getElem?_eq_some_iff.mp hi
  have hlt' : i < o.routines.length := hroutines.length_eq ▸ hlt
  have hof := hroutines.get hlt hlt'
  rw [List.get_eq_getElem, heq] at hof
  have hr : o.routines[i]? = some o.routines[i] := List.getElem?_eq_getElem hlt'
  obtain ⟨part, hpart, hnode, _, hkind⟩ := part_of_getElem h hr
  obtain rfl : id = part.1 := Option.some.inj (hi.symm.trans hnode)
  obtain ⟨st, hf, _⟩ := assembleAll_getElem_some direct m hr ⟨0, []⟩
  refine ⟨_, by simpa [Outline.assemble] using hf, ?_, ?_, ?_⟩
  · exact congrArg (List.map _) hof.captures
  · exact congrArg (List.map _) hof.params
  · rw [show (o.routines[i].function m _).kind = part.2.1 from hkind]
    exact parts_kind_of_node rfl hpart

theorem assemble_numbers (h : (planOf m false).1.outline entry = .ok o) (direct : Bool) :
    (o.assemble direct m ⟨0, []⟩).1.functions.toList.filterMap (·.kind.number?) =
      List.range (liftedOf m (globalsOf m)).length := by
  have hnumbers := parts_numbers (planOf m false).1
  rw [← assemble_kinds h direct, List.filterMap_map] at hnumbers
  exact hnumbers

/-- What conversion reports starts with the lambdas that it has collected. -/
theorem convert_events (hentry : m.definition? m.entry = some entry) (direct : Bool) :
    ∃ later, (convert direct m).2 = (liftedOf m (globalsOf m)).zipIdx.map
      (fun (id, index) => .lambdaCollected id index) ++ later := by
  have hplan : (planOf m direct).2 = (liftedOf m (globalsOf m)).zipIdx.map
      (fun (id, index) => .lambdaCollected id index) ++ [.freeSettled _] := rfl
  unfold convert
  rw [hentry]
  simp only [hplan, List.append_assoc]
  split <;> exact ⟨_, rfl⟩

/-- The place of each lambda among the functions of a program. -/
theorem assemble_bijOn (regular : Regular m) (h : (planOf m false).1.outline entry = .ok o)
    (direct : Bool) :
    Set.BijOn (fun id => ((planOf m false).1.function? id).getD 0) (lambdasOf m)
      (Set.Iio (o.assemble direct m ⟨0, []⟩).1.functions.size) := by
  have hnodes := planOf_nodes_nodup regular
  have hsize : (o.assemble direct m ⟨0, []⟩).1.functions.size =
      (planOf m false).1.nodes.length := by
    have hlength := congrArg List.length (assemble_kinds (m := m) h direct)
    rw [List.length_map, List.length_map, Array.length_toList] at hlength
    rw [hlength, ← Plan.parts_nodes, List.length_map]
  refine ⟨?_, ?_, ?_⟩
  · intro id hid
    rw [hsize]
    exact (List.getElem?_eq_some_iff.mp (nodes_function? hid)).1
  · intro id hid other hother heq
    have heq : ((planOf m false).1.function? id).getD 0 =
        ((planOf m false).1.function? other).getD 0 := heq
    exact Option.some.inj ((nodes_function? hid).symm.trans (heq ▸ nodes_function? hother))
  · intro i hi
    have hlt : i < (planOf m false).1.nodes.length := hsize ▸ hi
    have hnode := List.getElem?_eq_getElem hlt
    refine ⟨_, mem_nodes_iff.mp (List.mem_of_getElem? hnode), ?_⟩
    exact congrArg (·.getD 0) (lastIndex_of_getElem hnodes hnode)

end

end Flat

open Flat (Discovers FunctionOf collect convert followed globalsOf isLambda lambdasOf liftedOf
  planOf walkBound)

/-- **Lambdas are collected completely and once.** The walk that collects the lambdas ends before
its bound is reached. It finds, each once, the lambdas that are no top-level definitions and to
which owned nodes and names of other things than definitions lead from a definition, in the order in
which a depth-first walk discovers them. It reports them with the numbers from zero on. In the
program the lifted functions have these numbers, each once; and there is one function for each
top-level function and each collected lambda. -/
theorem lambdas_collected_once {options : Core.LowerOptions} {source : String} {m : Core.Module}
    (direct : Bool) (hm : (lowerSource options source).result = .ok m) :
    (∀ lifted start more, collect m (globalsOf m) (walkBound m + more) start ⟨lifted, []⟩ =
        collect m (globalsOf m) (walkBound m) start ⟨lifted, []⟩) ∧
      (∀ id, id ∈ liftedOf m (globalsOf m) ↔
        (isLambda (m.kind id) = true ∧ m.isDefinition id = false) ∧
          ∃ root ∈ m.definitions.map (·.2),
            Relation.ReflTransGen (fun node next => next ∈ followed m node) root id) ∧
      (liftedOf m (globalsOf m)).Nodup ∧
      (∃ order, Discovers (followed m) [] (m.definitions.map (·.2)) order ∧
        liftedOf m (globalsOf m) =
          order.filter fun id => isLambda (m.kind id) && !m.isDefinition id) ∧
      (∀ entry, m.definition? m.entry = some entry → ∃ later, (convert direct m).2 =
        (liftedOf m (globalsOf m)).zipIdx.map (fun (id, index) => .lambdaCollected id index) ++
          later) ∧
      ∀ p, (convert direct m).1 = .ok p →
        p.functions.toList.filterMap (·.kind.number?) =
            List.range (liftedOf m (globalsOf m)).length ∧
          ∃ place : Core.NodeId → Nat,
            Set.BijOn place (lambdasOf m) (Set.Iio p.functions.size) ∧
              ∀ id ∈ lambdasOf m, ∃ f, p.functions[place id]? = some f ∧
                FunctionOf (planOf m direct).1 id f := by
  obtain ⟨tree, htree, hm⟩ := lowerSource_ok hm
  have hformed := parseSource_formed htree
  have regular := Flat.regular_of_lowerModule hformed hm
  have hbounds : Flat.BoundsSuffice (planOf m direct).1 := Flat.boundsSuffice regular.shaped
  refine ⟨hbounds.walk (globalsOf m), ?_, Flat.liftedOf_nodup regular,
    Flat.liftedOf_discovers (Core.wellFormed_of_lowerModule hformed hm) regular.shaped regular.nodup,
    ?_, ?_⟩
  · intro id
    rw [Flat.mem_liftedOf_iff regular, Flat.isLifted, Bool.and_eq_true, Bool.not_eq_true']
    rfl
  · intro entry hentry
    exact Flat.convert_events hentry direct
  · intro p hp
    rw [Flat.convert_eq regular.shaped] at hp
    obtain ⟨o, ho, rfl⟩ := ok_of_map hp
    unfold Flat.outlineOf at ho
    split at ho
    · cases ho
    refine ⟨Flat.assemble_numbers ho direct, _, Flat.assemble_bijOn regular ho direct, ?_⟩
    intro id hid
    obtain ⟨f, hf, hof⟩ := Flat.assemble_functionOf ho direct (Flat.nodes_function? hid)
    exact ⟨f, hf, hof.captures, hof.params, hof.kind⟩

/-- A text with two local functions that call each other, both met first in a lambda that stands
after them, and lambdas in a definition that is no function. -/
def meetingText : String :=
  "f x = let a = \\y -> b y; b = \\z -> a (x + z) in \\w -> b (a w)\n" ++
  "main = (\\k -> f k) 1 (let c = \\n -> n in c 2)"

/-- The text has one top-level function and five other lambdas, and the two local functions are
found in the reverse of the order in which they stand. -/
theorem meetingText_collected :
    ∃ m p, (lowerSource {} meetingText).result = .ok m ∧ (convert true m).1 = .ok p ∧
      p.functions.toList.map (·.displayName) =
        ["f", "lambda 0", "b (lambda 1)", "a (lambda 2)", "lambda 3", "c (lambda 4)"] ∧
      p.functions.toList.filterMap (·.kind.number?) = List.range 5 ∧
      (∃ order, Discovers (followed m) [] (m.definitions.map (·.2)) order ∧
        [34, 15, 14, 39, 42] = order.filter fun id => isLambda (m.kind id) && !m.isDefinition id) ∧
      ∃ place, Set.BijOn place (lambdasOf m) (Set.Iio p.functions.size) := by
  have hcheck : ((lowerSource {} meetingText).result.toOption.bind fun m =>
      (convert true m).1.toOption.map fun p =>
        (liftedOf m (globalsOf m), p.functions.toList.map (·.displayName))) =
      some ([34, 15, 14, 39, 42],
        ["f", "lambda 0", "b (lambda 1)", "a (lambda 2)", "lambda 3", "c (lambda 4)"]) := by
    decide +kernel
  obtain ⟨m, hm, hcheck⟩ := Option.bind_eq_some_iff.mp hcheck
  obtain ⟨p, hp, hcheck⟩ := Option.map_eq_some_iff.mp hcheck
  obtain ⟨hlifted, hnames⟩ := Prod.mk.inj hcheck
  obtain ⟨_, _, _, horder, _, hprogram⟩ := lambdas_collected_once true (ok_of_toOption hm)
  obtain ⟨hnumbers, place, hplace, _⟩ := hprogram p (ok_of_toOption hp)
  rw [hlifted] at horder hnumbers
  exact ⟨m, p, ok_of_toOption hm, ok_of_toOption hp, hnames, hnumbers, horder, place, hplace⟩

end Lamina
