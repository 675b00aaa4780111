import Mathlib.Logic.Relation
import Mathlib.Tactic.Choose
import Lamina.Core.Printer

/-!
# Printing comes to an end

The printer follows whatever edges a graph has, and keeps the nodes that it is printing in its state.
Each node below the size of the graph can be added to them once, so printing ends
(`exists_run_node`), and the state is then as it was. What is printed for a node depends on the state
only where the node leads back to it (`text_congr`).
-/

namespace Lamina.Core.Printer

open Relation (ReflTransGen TransGen)

variable {m : Module} {path path' : List NodeId} {id : NodeId}

/-- A node is printed inside another. -/
def Prints (m : Module) (id child : NodeId) : Prop := child ∈ nested m id

theorem nested_of_size_le (hid : m.graph.size ≤ id) : nested m id = [] := by
  rw [nested, Module.kind, Graph.kind, Array.getElem?_eq_none hid]
  rfl

/-- The nodes of the graph that are not being printed. -/
def fresh (m : Module) (path : List NodeId) : List NodeId :=
  (List.range m.graph.size).filter (· ∉ path)

/-- There is one fewer of them for what is printed inside a node. -/
theorem fresh_cons_lt {child : NodeId} (hid : id ∉ path) (hchild : child ∈ nested m id) :
    (fresh m (id :: path)).length < (fresh m path).length := by
  have hsize : id < m.graph.size := by
    refine Nat.lt_of_not_le fun hle => ?_
    rw [nested_of_size_le hle] at hchild
    cases hchild
  have heq : fresh m (id :: path) = (fresh m path).filter (· ≠ id) := by
    unfold fresh
    rw [List.filter_filter]
    exact List.filter_congr fun node _ => by simp [not_or]
  rw [heq]
  refine List.length_filter_lt_length_iff_exists.mpr ⟨id, ?_, by simp⟩
  exact List.mem_filter.mpr ⟨List.mem_range.mpr hsize, by simpa using hid⟩

/-- Induction along a print: nodes that are printed inside another come first. -/
theorem print_induction {motive : List NodeId → NodeId → Prop}
    (step : ∀ path id, (id ∉ path → ∀ child ∈ nested m id, motive (id :: path) child) →
      motive path id) (path : List NodeId) (id : NodeId) : motive path id := by
  induction hfresh : (fresh m path).length using Nat.strongRecOn generalizing path id with
  | ind count ih =>
    exact step path id fun hid child hchild =>
      ih _ (hfresh ▸ fresh_cons_lt hid hchild) (id :: path) child rfl

/-- What is printed for a node, given the texts of the nodes inside it. -/
def layer (m : Module) (path : List NodeId) (depth : Nat) (id : NodeId) (text : NodeId → String) :
    String :=
  if id ∈ path then "<cycle " ++ nodeText id ++ ">" else compose m depth id ((nested m id).map text)

theorem run_mapM {f : NodeId → StateT (List NodeId) Option String} {text} (children : List NodeId)
    (h : ∀ child ∈ children, (f child).run path = some (text child, path)) :
    (children.mapM f).run path = some (children.map text, path) := by
  induction children with
  | nil => rfl
  | cons child rest ih =>
    obtain ⟨hfirst, hrest⟩ := List.forall_mem_cons.mp h
    rw [List.mapM_cons, StateT.run_bind, hfirst]
    show ((rest.mapM f >>= fun texts => pure (text child :: texts)).run path) = _
    rw [StateT.run_bind, ih hrest]
    rfl

/-- One node, when the nodes inside it are done. -/
theorem run_node {text limit} (depth : Nat) (h : id ∉ path → ∀ child ∈ nested m id,
      (node m limit (innerDepth m depth id) child).run (id :: path) =
        some (text child, id :: path)) :
    (node m (limit + 1) depth id).run path = some (layer m path depth id text, path) := by
  rw [node, layer]
  by_cases hid : id ∈ path
  · rw [if_pos hid]
    simp [hid]
  · have hinner := run_mapM (nested m id) (h hid)
    rw [if_neg hid]
    simp [hid, hinner]

/-- Nodes nest no deeper than there are nodes which are not being printed. -/
theorem exists_run_node (m : Module) (path : List NodeId) (id : NodeId) :
    ∀ depth, ∃ text, ∀ limit, (fresh m path).length < limit →
      (node m limit depth id).run path = some (text, path) := by
  induction path, id using print_induction (m := m) with
  | step path id ih =>
    intro depth
    choose! text htext using ih
    refine ⟨layer m path depth id (text · (innerDepth m depth id)), fun limit hlimit => ?_⟩
    obtain ⟨limit, rfl⟩ := Nat.exists_eq_add_one_of_ne_zero (Nat.ne_zero_of_lt hlimit)
    refine run_node depth fun hid child hchild => htext hid child hchild _ limit ?_
    exact Nat.lt_of_lt_of_le (fresh_cons_lt hid hchild) (Nat.le_of_lt_succ hlimit)

/-- What is printed for a node depends on the nodes that are being printed only where it leads back
to them. -/
theorem text_congr {text : List NodeId → Nat → NodeId → String}
    (htext : ∀ path depth id,
      text path depth id = layer m path depth id (text (id :: path) (innerDepth m depth id)))
    (h : ∀ node, ReflTransGen (Prints m) id node → (node ∈ path ↔ node ∈ path')) :
    ∀ depth, text path depth id = text path' depth id := by
  induction path, id using print_induction (m := m) generalizing path' with
  | step path id ih =>
    intro depth
    rw [htext path, htext path', layer, layer]
    by_cases hid : id ∈ path
    · rw [if_pos hid, if_pos ((h id .refl).mp hid)]
    · rw [if_neg hid, if_neg (mt (h id .refl).mpr hid)]
      congr 1
      refine List.map_congr_left fun child hchild => ih hid child hchild (fun node hnode => ?_) _
      rw [List.mem_cons, List.mem_cons, h node (.head hchild hnode)]

end Lamina.Core.Printer

namespace Lamina.Core

open Printer (Prints compose fresh nested innerDepth)
open Relation (TransGen)

end Lamina.Core
