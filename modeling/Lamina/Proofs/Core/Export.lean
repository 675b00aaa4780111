import Mathlib.Data.List.Sort
import Lamina.Core.Export
import Lamina.Proofs.Core.Reach
import Lamina.Proofs.Core.Shape
import Lamina.Proofs.Lookup

/-!
# What is exported

An exported module lists the nodes that its definitions lead to, each once and in ascending order,
and mentions no other node (`export_lists_reachable`).
-/

namespace Lamina

namespace Text.Json

/-- The field of an object under a key. -/
def field? (key : String) : Json → Option Json
  | obj fields => fields.lookup key
  | _ => none

/-- The elements of an array. -/
def elements : Json → List Json
  | arr elems => elems
  | _ => []

/-- The number that a value is. -/
def number? : Json → Option Int
  | num value => some value
  | _ => none

/-- An object has the fields that it is made of, whatever their order. -/
theorem field?_ofFields {fields} (h : (fields.map (·.1)).Nodup) (key : String) :
    (ofFields fields).field? key = fields.lookup key :=
  lookup_eq_of_perm (List.mergeSort_perm ..)
    (((List.mergeSort_perm ..).map _).nodup_iff.mpr h) key

end Text.Json

namespace Core

open Lamina.Text (Json)

variable {m : Module} {id next : NodeId}

/-- The edges of a graph: a node leads to its children, an indirection to its target, and a lambda
to its parameters. -/
inductive Module.Edge (m : Module) (id : NodeId) : NodeId → Prop
  | child {next : NodeId} (h : next ∈ (m.kind id).children) : Edge m id next
  | target {next : NodeId} (h : m.kind id = .indirection next) : Edge m id next
  | param {next : NodeId} (h : next ∈ m.params id) : Edge m id next

/-- Definitions and edges lead to nodes of the table. -/
structure Module.InRange (m : Module) : Prop where
  definition : ∀ id ∈ m.definitions.map (·.2), id < m.graph.size
  edge : ∀ {id next}, m.Edge id next → next < m.graph.size

theorem edge_iff : m.Edge id next ↔ next ∈ (m.kind id).successors ++ m.params id := by
  rw [List.mem_append]
  constructor
  · rintro (h | h | h)
    · left
      cases hkind : m.kind id <;> rw [hkind] at h <;> first | exact h | cases h
    · rw [h]
      exact .inl (List.mem_singleton_self next)
    · exact .inr h
  · rintro (h | h)
    · cases hkind : m.kind id <;> rw [hkind] at h
      case indirection target =>
        rw [List.mem_singleton.mp h]
        exact .target hkind
      all_goals exact .child (by rw [hkind]; exact h)
    · exact .param h

/-- The nodes that are exported are those that the definitions lead to. -/
theorem mem_exportedNodes_iff (h : m.InRange) : id ∈ m.exportedNodes ↔
    ∃ first ∈ m.definitions.map (·.2), Relation.ReflTransGen m.Edge first id := by
  have hedge : (fun a b => b ∈ (m.kind a).successors ++ m.params a) = m.Edge := by
    funext a b
    exact propext edge_iff.symm
  unfold Module.exportedNodes
  rw [mem_reachable_iff (fun hnext => h.edge (edge_iff.mpr hnext)) h.definition, hedge]

theorem exportedNodes_ascending (m : Module) : m.exportedNodes.Pairwise (· < ·) :=
  List.pairwise_lt_range.filter _

/-! ## What is mentioned -/

/-- The fields of an exported node that hold ids. -/
def idFields : List String := ["target", "func", "arg", "params", "body", "cond", "then", "else"]

/-- The numbers in a field: the one that is there, or all in the list that is there. -/
def numbersIn (value : Json) : List Int := (value :: value.elements).filterMap Json.number?

/-- The ids that an exported node mentions. -/
def mentioned (node : Json) : List Int :=
  idFields.flatMap fun key => ((node.field? key).map numbersIn).getD []

theorem field?_exportNode (m : Module) (id : NodeId) (key : String) :
    (m.exportNode id).field? key =
      ([("id", Json.ofNat id), ("name", ((m.graph.name id).map .str).getD .null),
        ("kind", .str (m.kind id).tag)] ++ (m.kind id).fields m id).lookup key := by
  refine Json.field?_ofFields ?_ key
  cases m.kind id with
  | literal value => cases value <;> simp [NodeKind.fields]
  | _ => simp [NodeKind.fields]

/-- A node mentions the nodes that it leads to. -/
theorem mem_mentioned_iff {n : Int} :
    n ∈ mentioned (m.exportNode id) ↔ ∃ next : NodeId, m.Edge id next ∧ n = next := by
  simp only [mentioned, field?_exportNode, edge_iff]
  cases hkind : m.kind id with
  | lambda scope body =>
    simp [NodeKind.fields, idFields, NodeKind.successors, NodeKind.children, List.lookup_cons,
      numbersIn, Json.ofNat, Json.elements, Json.number?]
    grind
  | literal value =>
    cases value <;>
      simp [NodeKind.fields, idFields, NodeKind.successors, NodeKind.children, List.lookup_cons,
        Module.params, hkind]
  | _ =>
    simp [NodeKind.fields, idFields, NodeKind.successors, NodeKind.children, List.lookup_cons,
      numbersIn, Json.ofNat, Json.elements, Json.number?, Module.params, hkind]

/-- The id of an exported node. -/
def idOf? (node : Json) : Option Int := (node.field? "id").bind Json.number?

theorem idOf?_exportNode (m : Module) (id : NodeId) :
    idOf? (m.exportNode id) = some (id : Int) := by
  rw [idOf?, field?_exportNode]
  rfl

/-! ## Modules -/

/-- The exported nodes. -/
def nodesOf (exported : Json) : List Json := ((exported.field? "nodes").map Json.elements).getD []

/-- The nodes of the exported definitions. -/
def definedOf (exported : Json) : List Int :=
  (((exported.field? "definitions").map Json.elements).getD []).filterMap fun definition =>
    (definition.field? "node").bind Json.number?

theorem field?_toJson (m : Module) (key : String) :
    m.toJson.field? key =
      [("module", Json.str m.name), ("entry", .str m.entry),
       ("definitions", .arr (m.definitions.map fun (name, id) =>
          .ofFields [("name", .str name), ("node", .ofNat id)])),
       ("nodes", .arr (m.exportedNodes.map m.exportNode))].lookup key :=
  Json.field?_ofFields (by simp) key

theorem nodesOf_toJson (m : Module) : nodesOf m.toJson = m.exportedNodes.map m.exportNode := by
  rw [nodesOf, field?_toJson]
  rfl

theorem definedOf_toJson (m : Module) :
    definedOf m.toJson = m.definitions.map fun definition => (definition.2 : Int) := by
  have hnode (definition : String × NodeId) :
      ((Json.ofFields [("name", .str definition.1), ("node", .ofNat definition.2)]).field?
        "node").bind Json.number? = some (definition.2 : Int) := by
    rw [Json.field?_ofFields (by simp)]
    rfl
  rw [definedOf, field?_toJson]
  show ((m.definitions.map _).filterMap _) = _
  rw [List.filterMap_map, ← List.filterMap_eq_map]
  exact List.filterMap_congr fun definition _ => hnode definition

/-- Whatever is mentioned is exported. -/
theorem mem_exportedNodes_of_mentioned (h : m.InRange) {n : Int}
    (hn : n ∈ definedOf m.toJson ++ (nodesOf m.toJson).flatMap mentioned) :
    ∃ id ∈ m.exportedNodes, n = id := by
  rcases List.mem_append.mp hn with hn | hn
  · rw [definedOf_toJson] at hn
    obtain ⟨definition, hdefinition, rfl⟩ := List.mem_map.mp hn
    exact ⟨definition.2, (mem_exportedNodes_iff h).mpr
      ⟨_, List.mem_map_of_mem hdefinition, .refl⟩, rfl⟩
  · rw [nodesOf_toJson, List.flatMap_map] at hn
    obtain ⟨id, hid, hmentioned⟩ := List.mem_flatMap.mp hn
    obtain ⟨next, hedge, rfl⟩ := mem_mentioned_iff.mp hmentioned
    obtain ⟨first, hfirst, hpath⟩ := (mem_exportedNodes_iff h).mp hid
    exact ⟨next, (mem_exportedNodes_iff h).mpr ⟨first, hfirst, hpath.tail hedge⟩, rfl⟩

/-- **The export of a module is the graph that its definitions lead to.** The nodes are listed in
strictly ascending order of their ids, which are those that can be reached from a definition through
children, targets and parameters. So whatever id a definition or a node mentions is that of exactly
one exported node. -/
theorem export_lists_reachable (h : m.InRange) :
    (∃ ids : List NodeId,
      (nodesOf m.toJson).map idOf? = ids.map (some ∘ Int.ofNat) ∧
      ids.Pairwise (· < ·) ∧
      ∀ id, id ∈ ids ↔
        ∃ first ∈ m.definitions.map (·.2), Relation.ReflTransGen m.Edge first id) ∧
    ∀ n ∈ definedOf m.toJson ++ (nodesOf m.toJson).flatMap mentioned,
      ∃! i : Nat, ∃ node, (nodesOf m.toJson)[i]? = some node ∧ idOf? node = some n := by
  refine ⟨⟨m.exportedNodes, ?_, exportedNodes_ascending m, fun _ => mem_exportedNodes_iff h⟩, ?_⟩
  · rw [nodesOf_toJson, List.map_map]
    exact List.map_congr_left fun id _ => idOf?_exportNode m id
  · intro n hn
    obtain ⟨id, hid, rfl⟩ := mem_exportedNodes_of_mentioned h hn
    obtain ⟨i, hlt, rfl⟩ := List.getElem_of_mem hid
    refine ⟨i, ⟨_, by simp [nodesOf_toJson, hlt], idOf?_exportNode m _⟩, ?_⟩
    rintro j ⟨node, hnode, hj⟩
    rw [nodesOf_toJson, List.getElem?_map] at hnode
    obtain ⟨other, hother, rfl⟩ := Option.map_eq_some_iff.mp hnode
    rw [idOf?_exportNode] at hj
    have heq : other = m.exportedNodes[i] := Int.ofNat.inj (Option.some.inj hj)
    obtain ⟨hlt', rfl⟩ := List.getElem?_eq_some_iff.mp hother
    exact ((exportedNodes_ascending m).nodup.getElem_inj_iff).mp heq

/-- A module in which a child, a parameter and an indirection lead back, and with a node that nothing
leads to. -/
def knotted : Module where
  name := "Knot"
  graph := ⟨#[⟨.lambda 1 1, some "main"⟩, ⟨.application 1 2, none⟩, ⟨.indirection 0, some "x"⟩,
    ⟨.indirection 3, none⟩]⟩
  scopes := ⟨#[⟨.moduleScope, none, [("main", 0)]⟩, ⟨.paramScope, some 0, [("x", 2)]⟩]⟩
  root := 0
  top := 0
  entry := "main"

theorem knotted_exported :
    knotted.InRange ∧ knotted.exportedNodes = [0, 1, 2] ∧ 2 ∈ mentioned (knotted.exportNode 1) ∧
      ∃! i : Nat, ∃ node, (nodesOf knotted.toJson)[i]? = some node ∧ idOf? node = some 2 := by
  have hsmall : ∀ id < 4, ∀ next ∈ (knotted.kind id).successors ++ knotted.params id, next < 4 := by
    decide
  have hrange : knotted.InRange := by
    refine ⟨by decide, fun {id next} hedge => ?_⟩
    rw [edge_iff] at hedge
    rcases Nat.lt_or_ge id 4 with hlt | hge
    · exact hsmall id hlt next hedge
    · have hkind : knotted.kind id = .noForm := Module.kind_of_size_le hge
      simp [Module.params, hkind, NodeKind.successors, NodeKind.children] at hedge
  have hnodes : knotted.exportedNodes = [0, 1, 2] := by decide +kernel
  have hmentioned : 2 ∈ mentioned (knotted.exportNode 1) :=
    mem_mentioned_iff.mpr ⟨2, .child (by decide), rfl⟩
  refine ⟨hrange, hnodes, hmentioned, (export_lists_reachable hrange).2 2 ?_⟩
  rw [nodesOf_toJson, hnodes]
  exact List.mem_append_right _ (List.mem_flatMap.mpr ⟨_, by simp, hmentioned⟩)

end Core

end Lamina
