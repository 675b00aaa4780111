import Mathlib.Logic.Relation
import Lamina.Core.Reach

/-!
# What is reachable

A walk marks exactly the nodes that edges lead to from where it starts (`mem_reachable_iff`).
-/

namespace Lamina.Core

variable {id : NodeId} {next : NodeId → List NodeId} {size : Nat} {start : List NodeId}

/-- A node bears a mark. -/
def Marked (marks : Array Bool) (id : NodeId) : Prop := marks[id]? = some true

theorem marked_set {marks other} (h : id < marks.size) :
    Marked (marks.set id true) other ↔ other = id ∨ Marked marks other := by
  unfold Marked
  rw [Array.getElem?_set]
  by_cases heq : id = other
  · subst heq
    simp [h]
  · simp [heq, Ne.symm heq]

/-- What a walk from pending nodes does to the marks: it keeps them, marks the pending nodes and
what these lead to, and leaves no edge open that starts at a node it has marked. -/
structure Marking (next : NodeId → List NodeId) (marks : Array Bool) (pending : List NodeId)
    (after : Array Bool) : Prop where
  size : after.size = marks.size
  keeps : ∀ {id}, Marked marks id → Marked after id
  starts : ∀ {id}, id ∈ pending → id < marks.size → Marked after id
  closed : ∀ {id child}, Marked after id → ¬ Marked marks id → child ∈ next id →
    child < marks.size → Marked after child
  reached : ∀ {id}, Marked after id → Marked marks id ∨
    ∃ start ∈ pending, Relation.ReflTransGen (fun a b => b ∈ next a) start id

/-- A pending node that bears a mark already, or is not in range, is passed over. -/
theorem Marking.cons {next marks pending after} (h : Marking next marks pending after)
    (hid : id < marks.size → Marked after id) : Marking next marks (id :: pending) after where
  size := h.size
  keeps := h.keeps
  starts hother hrange := by
    rcases List.mem_cons.mp hother with rfl | hrest
    · exact hid hrange
    · exact h.starts hrest hrange
  closed := h.closed
  reached hother := by
    refine (h.reached hother).imp_right ?_
    rintro ⟨start, hstart, hpath⟩
    exact ⟨start, List.mem_cons_of_mem id hstart, hpath⟩

theorem markReachable_marking (next : NodeId → List NodeId) (marks : Array Bool)
    (pending : List NodeId) : Marking next marks pending (markReachable next marks pending) := by
  fun_induction markReachable next marks pending with
  | case1 marks =>
    exact ⟨rfl, id, nofun, fun h hnot => absurd h hnot, Or.inl⟩
  | case2 marks id rest hlt hmarked ih =>
    refine ih.cons fun _ => ih.keeps ?_
    rw [Marked, Array.getElem?_eq_getElem hlt, hmarked]
  | case3 marks id rest hlt hmarked ih =>
    have hsize : (marks.set id true).size = marks.size := Array.size_set _
    refine ⟨ih.size.trans hsize, ?_, ?_, ?_, ?_⟩
    · intro other hother
      exact ih.keeps ((marked_set hlt).mpr (Or.inr hother))
    · intro other hother hrange
      rcases List.mem_cons.mp hother with rfl | hrest
      · exact ih.keeps ((marked_set hlt).mpr (Or.inl rfl))
      · exact ih.starts (List.mem_append_right _ hrest) (hsize ▸ hrange)
    · intro other child hother hnot hchild hrange
      by_cases heq : other = id
      · subst heq
        exact ih.starts (List.mem_append_left _ hchild) (hsize ▸ hrange)
      · refine ih.closed hother (fun hset => ?_) hchild (hsize ▸ hrange)
        exact hnot (((marked_set hlt).mp hset).resolve_left heq)
    · intro other hother
      rcases ih.reached hother with hset | ⟨start, hstart, hpath⟩
      · rcases (marked_set hlt).mp hset with rfl | hold
        · exact Or.inr ⟨other, List.mem_cons_self, .refl⟩
        · exact Or.inl hold
      · rcases List.mem_append.mp hstart with hchild | hrest
        · exact Or.inr ⟨id, List.mem_cons_self, .head hchild hpath⟩
        · exact Or.inr ⟨start, List.mem_cons_of_mem id hrest, hpath⟩
  | case4 marks id rest hlt ih => exact ih.cons fun hrange => absurd hrange hlt

theorem not_marked_replicate (size : Nat) (id : NodeId) :
    ¬ Marked (Array.replicate size false) id := by
  simp [Marked, Array.getElem?_replicate]

theorem mem_reachable :
    id ∈ reachable next size start ↔
      Marked (markReachable next (Array.replicate size false) start) id := by
  have hsize := (markReachable_marking next (Array.replicate size false) start).size
  rw [Array.size_replicate] at hsize
  unfold reachable Marked
  rw [List.mem_filter, List.mem_range]
  constructor
  · rintro ⟨hlt, hmark⟩
    have hlt' : id < (markReachable next (Array.replicate size false) start).size :=
      Nat.lt_of_lt_of_eq hlt hsize.symm
    rw [Array.getElem?_eq_getElem hlt'] at hmark ⊢
    simpa using hmark
  · intro hmark
    refine ⟨hsize ▸ (Array.getElem?_eq_some_iff.mp hmark).1, ?_⟩
    rw [hmark]
    rfl

/-- If edges stay in the table, the nodes that a walk finds are those that edges lead to. -/
theorem mem_reachable_iff (hnext : ∀ {id child}, child ∈ next id → child < size)
    (hstart : ∀ id ∈ start, id < size) :
    id ∈ reachable next size start ↔
      ∃ first ∈ start, Relation.ReflTransGen (fun a b => b ∈ next a) first id := by
  have hwalk := markReachable_marking next (Array.replicate size false) start
  have hsize : (Array.replicate size false).size = size := Array.size_replicate
  rw [mem_reachable]
  constructor
  · intro hid
    exact (hwalk.reached hid).resolve_left (not_marked_replicate size id)
  · rintro ⟨first, hfirst, hpath⟩
    induction hpath with
    | refl => exact hwalk.starts hfirst (hsize.symm ▸ hstart first hfirst)
    | tail _ hedge ih =>
      exact hwalk.closed ih (not_marked_replicate size _) hedge (hsize.symm ▸ hnext hedge)

end Lamina.Core
