import Lamina.Core.Module

/-!
# Reachability

The nodes that can be reached from some start nodes along a successor function. Each node is
marked when it is first met, so cycles do no harm.
-/

namespace Lamina.Core

/-- How many edges leave the nodes that are not marked yet, the first of which has the index
given. -/
def openEdges (next : NodeId → List NodeId) : NodeId → List Bool → Nat
  | _, [] => 0
  | id, mark :: marks => (if mark then 0 else (next id).length) + openEdges next (id + 1) marks

/-- Marking a node takes away the edges that leave it. -/
theorem openEdges_set (next : NodeId → List NodeId) (first : NodeId) {marks : List Bool} {id : Nat}
    (h : id < marks.length) (hm : marks[id] = false) :
    openEdges next first (marks.set id true) + (next (first + id)).length =
      openEdges next first marks := by
  induction marks generalizing first id with
  | nil => simp at h
  | cons mark marks ih =>
    cases id with
    | zero => simp_all [openEdges, Nat.add_comm]
    | succ id =>
      have step := ih (first + 1) (by simpa using h) (by simpa using hm)
      have hplace : first + 1 + id = first + (id + 1) := Nat.add_right_comm first 1 id
      rw [hplace] at step
      simp only [List.set_cons_succ, openEdges]
      omega

/-- Marks what is reachable from the pending nodes. Ids outside the table are passed over. -/
def markReachable (next : NodeId → List NodeId) (marks : Array Bool) (pending : List NodeId) :
    Array Bool :=
  match pending with
  | [] => marks
  | id :: rest =>
    if h : id < marks.size then
      if hm : marks[id] then markReachable next marks rest
      else markReachable next (marks.set id true) (next id ++ rest)
    else markReachable next marks rest
termination_by pending.length + openEdges next 0 marks.toList
decreasing_by
  · simp
  · have hm' : marks.toList[id] = false := by simpa using hm
    have step := openEdges_set next 0 h hm'
    rw [Nat.zero_add] at step
    simp only [Array.toList_set, List.length_append, List.length_cons]
    omega
  · simp

/-- The nodes reachable from `start`, in ascending order. -/
def reachable (next : NodeId → List NodeId) (size : Nat) (start : List NodeId) : List NodeId :=
  let marks := markReachable next (Array.replicate size false) start
  (List.range size).filter fun id => marks[id]?.getD false

namespace Module

/-- The nodes that the definitions lead to through children and indirections, in ascending
order. -/
def liveNodes (m : Module) : List NodeId :=
  reachable (fun id => (m.kind id).successors) m.graph.size (m.definitions.map (·.2))

/-- The live nodes and the parameters of the lambdas among them, in ascending order. -/
def exportedNodes (m : Module) : List NodeId :=
  reachable (fun id => (m.kind id).successors ++ m.params id) m.graph.size
    (m.definitions.map (·.2))

/-- The first live node that was reserved and never given its contents. -/
def unfilled? (m : Module) : Option NodeId :=
  m.liveNodes.find? fun id => m.kind id = .noForm

end Module

end Lamina.Core
