import Lamina.Core.Module

/-!
# The shape of a lowered graph

Lowering makes the children of a node before the node itself, except that a binding has its node
reserved first; and the node of a binding is the child of none. So the edges to owned children never
run in a circle: a child has its own children before it. `rank` turns this into a number that falls
along owned edges.
-/

namespace Lamina.Core

/-- What holds of the graph of every lowered module. -/
structure Module.Shaped (m : Module) : Prop where
  target_lt : ∀ {id target : Nat}, m.kind id = .indirection target → target < m.graph.size
  child_lt : ∀ {id child : Nat}, child ∈ (m.kind id).children → child < m.graph.size
  child_below : ∀ {id child other : Nat}, child ∈ (m.kind id).children →
    other ∈ (m.kind child).children → other < child
  params_ne_nil : ∀ {id scope body : Nat}, m.kind id = .lambda scope body → m.params id ≠ []

namespace Module

variable {m : Module} {id : Nat}

/-- How far owned edges can lead from a node: nowhere from one without children, to smaller ids from
one with its children before it, and to any of these from a binding. -/
def rank (m : Module) (id : Nat) : Nat :=
  if (m.kind id).children = [] then 0
  else if ∀ child ∈ (m.kind id).children, child < id then id
  else m.graph.size

/-- An id outside the table counts as a node without form. -/
theorem kind_of_size_le (h : m.graph.size ≤ id) : m.kind id = .noForm := by
  have hnone : m.graph.nodes[id]? = none := Array.getElem?_eq_none h
  show m.graph.kind id = .noForm
  unfold Graph.kind
  rw [hnone]

theorem rank_le (m : Module) (id : Nat) : m.rank id ≤ m.graph.size + 1 := by
  unfold rank
  -- ids outside the table have no children, so their rank is zero
  by_cases hid : id < m.graph.size
  · split
    · omega
    · split <;> omega
  · rw [if_pos (by rw [kind_of_size_le (Nat.le_of_not_lt hid)]; rfl)]
    omega

/-- Owned edges lead down. -/
theorem Shaped.rank_child (shaped : m.Shaped) {child : Nat} (h : child ∈ (m.kind id).children) :
    m.rank child < m.rank id := by
  have hlt := shaped.child_lt h
  have hchild : m.rank child ≤ child := by
    unfold rank
    rw [if_pos (fun other => shaped.child_below h)]
    split <;> omega
  rw [show m.rank id = if ∀ child ∈ (m.kind id).children, child < id then id else m.graph.size from
    if_neg (List.ne_nil_of_mem h)]
  split
  · rename_i hbelow
    exact Nat.lt_of_le_of_lt hchild (hbelow child h)
  · exact Nat.lt_of_le_of_lt hchild hlt

end Module

end Lamina.Core
