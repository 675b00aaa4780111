import Mathlib.Data.List.Induction
import Lamina.Core.Lowering

/-!
# The history of a graph

Lowering keeps a list of all it does to the graph. Here is what such a history says: which graph it
leads to, which nodes were reserved, and how often a node was given new contents. A node that was
never given new contents still has those it was added with.
-/

namespace Lamina.Core

theorem Graph.kind_alloc (g : Graph) (kind : NodeKind) (name : Option String) (id : NodeId) :
    (g.alloc kind name).2.kind id = if id = g.size then kind else g.kind id := by
  by_cases h : id = g.nodes.size
  · simp [Graph.kind, alloc, size, h]
  · simp [Graph.kind, alloc, size, Array.getElem?_push, h]

/-- The graph after a change. -/
def Graph.apply (g : Graph) : Change → Graph
  | .added kind name => (g.alloc kind name).2
  | .filled id kind => g.fill id kind

/-- The changes made to a graph that was empty at first, oldest first. -/
abbrev History := List Change

namespace History

/-- The graph that a history leads to. -/
def replay (history : History) : Graph := history.foldl Graph.apply .empty

/-- The contents that the nodes were added with, in the order of their ids. -/
def added (history : History) : List NodeKind :=
  history.filterMap fun
    | .added kind _ => some kind
    | .filled .. => none

/-- The names and the contents that the nodes were added with, in the order of their ids; nothing is
told of a node without a name. -/
def labels (history : History) : List (Option (String × NodeKind)) :=
  history.filterMap fun
    | .added kind name => some (name.map (·, kind))
    | .filled .. => none

/-- A node was added without contents. -/
def Reserves (history : History) (id : NodeId) : Prop := history.added[id]? = some .noForm

instance (history : History) (id : NodeId) : Decidable (history.Reserves id) :=
  inferInstanceAs (Decidable (_ = _))

/-- How often a node was given new contents. -/
def fills (history : History) (id : NodeId) : Nat :=
  history.countP fun
    | .added .. => false
    | .filled other _ => other == id

variable {history before after : History} {id other : Nat} {kind : NodeKind}
  {name : Option String}

theorem replay_snoc (history : History) (change : Change) :
    replay (history ++ [change]) = (replay history).apply change := by
  simp [replay]

@[simp]
theorem added_add : added (history ++ [.added kind name]) = history.added ++ [kind] := by
  simp [added]

@[simp]
theorem added_fill : added (history ++ [.filled id kind]) = history.added := by
  simp [added]

@[simp]
theorem fills_add : fills (history ++ [.added kind name]) id = history.fills id := by
  simp [fills]

theorem fills_fill : fills (history ++ [.filled other kind]) id =
    history.fills id + if other = id then 1 else 0 := by
  simp [fills, List.countP_cons]

theorem fills_append : fills (before ++ after) id = before.fills id + after.fills id :=
  List.countP_append

/-- There is a node for each time that one was added. -/
@[simp]
theorem size_replay (history : History) : history.replay.size = history.added.length := by
  induction history using List.reverseRecOn with
  | nil => rfl
  | append_singleton history change ih =>
    rw [replay_snoc]
    cases change with
    | added kind name => simp [Graph.apply, ih]
    | filled id kind => simp [Graph.apply, ih]

/-- A node that is not filled any more keeps its contents. -/
theorem kind_replay_append (h : id < before.replay.size) (hafter : after.fills id = 0) :
    (before ++ after).replay.kind id = before.replay.kind id := by
  induction after using List.reverseRecOn with
  | nil => rw [List.append_nil]
  | append_singleton after change ih =>
    rw [fills_append] at hafter
    have hrest := ih (by omega)
    rw [← List.append_assoc, replay_snoc, ← hrest]
    cases change with
    | added kind name =>
      refine Graph.kind_alloc_of_lt _ _ ?_
      rw [size_replay] at h ⊢
      rw [show added (before ++ after) = added before ++ added after from
        List.filterMap_append]
      rw [List.length_append]
      exact Nat.lt_of_lt_of_le h (Nat.le_add_right _ _)
    | filled other kind =>
      refine Graph.kind_fill_of_ne _ ?_
      rintro rfl
      simp [fills] at hafter

/-- A node that was never filled has the contents it was added with. -/
theorem kind_replay (h : history.added[id]? = some kind) (hfills : history.fills id = 0) :
    history.replay.kind id = kind := by
  induction history using List.reverseRecOn with
  | nil => cases h
  | append_singleton history change ih =>
    rw [replay_snoc]
    cases change with
    | added kind' name =>
      rw [added_add] at h
      rw [fills_add] at hfills
      show ((replay history).alloc kind' name).2.kind id = kind
      rw [Graph.kind_alloc, size_replay]
      by_cases hid : id = (added history).length
      · subst hid
        simpa using h
      · rw [if_neg hid]
        rw [List.getElem?_append] at h
        split at h
        · exact ih h hfills
        · rw [List.getElem?_singleton] at h
          split at h
          · omega
          · cases h
    | filled other kind' =>
      rw [added_fill] at h
      rw [fills_fill] at hfills
      have hne : other ≠ id := by
        intro heq
        rw [if_pos heq] at hfills
        omega
      rw [if_neg hne] at hfills
      show ((replay history).fill other kind').kind id = kind
      rw [Graph.kind_fill_of_ne kind' hne]
      exact ih h hfills

theorem Reserves.lt (h : history.Reserves id) : id < history.added.length :=
  (List.getElem?_eq_some_iff.mp h).1

/-! ## Where names may lead -/

theorem getElem?_of_isPrefix {α l l'} {x : α} (h : l <+: l') (hx : l[id]? = some x) :
    l'[id]? = some x := by
  obtain ⟨rest, rfl⟩ := h
  rwa [List.getElem?_append_left (List.getElem?_eq_some_iff.mp hx).1]

/-- A name may lead to a node: to one that was reserved for a definition, to a placeholder, or to an
intrinsic that was added before everything else. -/
def Leads (history : History) (id : NodeId) : Prop :=
  history.Reserves id ∨ history.added[id]? = some .placeholder ∨
    ∀ i ≤ id, ∃ op, history.added[i]? = some (.intrinsic op)

theorem Leads.lt (h : history.Leads id) : id < history.added.length := by
  rcases h with hreserves | hplaceholder | hintrinsic
  · exact hreserves.lt
  · exact (List.getElem?_eq_some_iff.mp hplaceholder).1
  · obtain ⟨op, hop⟩ := hintrinsic id (Nat.le_refl id)
    exact (List.getElem?_eq_some_iff.mp hop).1

theorem Leads.mono (h : before.Leads id) (hadded : before.added <+: after.added) :
    after.Leads id :=
  h.imp (getElem?_of_isPrefix hadded) (Or.imp (getElem?_of_isPrefix hadded) fun hintrinsic i hi =>
    (hintrinsic i hi).imp fun _ => getElem?_of_isPrefix hadded)

/-- The contents of a node that may be added to the graph: a reference leads where names may lead,
and children are nodes that were added with contents. -/
structure Fits (history : History) (kind : NodeKind) : Prop where
  formed : kind ≠ .noForm
  target : ∀ {target : Nat}, kind = .indirection target → history.Leads target
  child : ∀ {child : Nat}, child ∈ kind.children →
    ∃ kind, history.added[child]? = some kind ∧ kind ≠ .noForm

theorem Fits.mono (h : before.Fits kind) (hadded : before.added <+: after.added) :
    after.Fits kind where
  formed := h.formed
  target htarget := (h.target htarget).mono hadded
  child hchild := (h.child hchild).imp fun _ hkind => ⟨getElem?_of_isPrefix hadded hkind.1, hkind.2⟩

/-- Contents that mention no other node. -/
theorem Fits.of_successors (hformed : kind ≠ .noForm) (h : kind.successors = []) :
    history.Fits kind where
  formed := hformed
  target heq := by
    subst heq
    cases h
  child hchild := by
    cases kind <;> simp_all [NodeKind.successors, NodeKind.children]

end History

/-- What was done to the graph so far. -/
def LowerState.history (st : LowerState) : History := st.changes.toList

end Lamina.Core
