import Mathlib.Data.List.Dedup
import Lamina.Proofs.Core.State

/-!
# What is visible from a scope

A tree of scopes comes about by opening scopes, binding names and releasing scopes again. Whatever
was done, in whatever order, the queries answer from that history: each walks the scopes around the
one it is asked about, and finds there the names that were bound since each scope was last released.
So no two of them disagree.
-/

namespace Lamina.Core

/-- A change to the scopes. -/
inductive ScopeChange
  | opened (kind : ScopeKind) (parent : Option ScopeId)
  | bound (scope : ScopeId) (name : String) (node : NodeId)
  | released (scope : ScopeId)

/-- What was done to the scopes, newest first. -/
abbrev ScopeHistory := List ScopeChange

namespace ScopeHistory

/-- The kinds and the parents of the scopes, in the order of their ids. -/
def scopes : ScopeHistory → List (ScopeKind × Option ScopeId)
  | [] => []
  | .opened kind parent :: earlier => scopes earlier ++ [(kind, parent)]
  | _ :: earlier => scopes earlier

/-- The latest binding of a name in a scope that has not been released since. -/
def latest (scope : ScopeId) (name : String) : ScopeHistory → Option NodeId
  | [] => none
  | .opened .. :: earlier => latest scope name earlier
  | .bound other name' node :: earlier =>
    if other = scope ∧ name' = name then some node else latest scope name earlier
  | .released other :: earlier => if other = scope then none else latest scope name earlier

/-- The names that were bound in a scope since it was last released, newest first. -/
def boundIn (scope : ScopeId) : ScopeHistory → List String
  | [] => []
  | .opened .. :: earlier => boundIn scope earlier
  | .bound other name _ :: earlier =>
    if other = scope then name :: boundIn scope earlier else boundIn scope earlier
  | .released other :: earlier => if other = scope then [] else boundIn scope earlier

/-- The names of a scope, each once, in the order in which they were first bound since the scope was
last released. -/
def names (history : ScopeHistory) (scope : ScopeId) : List String :=
  (history.boundIn scope).dedup.reverse

/-- A scope and all those around it, innermost first; the last one has no parent. -/
inductive Around (history : ScopeHistory) : ScopeId → List ScopeId → Prop
  | root {scope kind} (h : history.scopes[scope]? = some (kind, none)) :
      Around history scope [scope]
  | inner {scope parent kind outer} (h : history.scopes[scope]? = some (kind, some parent))
      (houter : Around history parent outer) : Around history scope (scope :: outer)

/-- The tree that a history leads to. A parent is a scope that was opened before, and so is a scope
where a name is bound or all names are released. -/
inductive Builds : ScopeHistory → ScopeTree → Prop
  | start : Builds [] .empty
  | opened {history t} (h : Builds history t) (kind : ScopeKind) (parent : Option ScopeId)
      (hparent : ∀ p ∈ parent, p < t.scopes.size) :
      Builds (.opened kind parent :: history) (t.push kind parent).2
  | bound {history t} (h : Builds history t) (scope : ScopeId) (name : String) (node : NodeId)
      (hscope : scope < t.scopes.size) :
      Builds (.bound scope name node :: history) (t.bind scope name node)
  | released {history t} (h : Builds history t) (scope : ScopeId) (hscope : scope < t.scopes.size) :
      Builds (.released scope :: history) (t.release scope)

/-- The tree has what the history says, scope by scope. -/
structure Records (history : ScopeHistory) (t : ScopeTree) : Prop where
  size : history.scopes.length = t.scopes.size
  shape : ∀ {s : Nat}, s < t.scopes.size → history.scopes[s]? = some (t.kind s, t.parent s)
  latest : ∀ s name, t.lookupLocal s name = history.latest s name
  names : ∀ s, t.localNames s = history.names s
  parent_lt : ∀ {s parent : Nat}, t.parent s = some parent → parent < s

theorem names_bound (history : ScopeHistory) (scope s : ScopeId) (name : String) (node : NodeId) :
    names (.bound scope name node :: history) s =
      if scope = s then
        if name ∈ history.names s then history.names s else history.names s ++ [name]
      else history.names s := by
  rw [names, boundIn]
  split
  · by_cases hmem : name ∈ history.boundIn s
    · rw [List.dedup_cons_of_mem hmem, if_pos (by simpa [names] using hmem), names]
    · rw [List.dedup_cons_of_notMem hmem, if_neg (by simpa [names] using hmem), List.reverse_cons,
        names]
  · rfl

end ScopeHistory

/-! ## One change -/

namespace ScopeTree

variable (t : ScopeTree) (kind : ScopeKind) (parent : Option ScopeId) (s scope : ScopeId)

/-- A new scope has no names, as places without a scope have none. -/
theorem bindings_push : (t.push kind parent).2.bindings s = t.bindings s := by
  by_cases hs : s = t.scopes.size
  · subst hs
    simp [bindings, getElem_push_self]
  · simp [bindings, push, Array.getElem?_push, hs]

theorem parent_push : (t.push kind parent).2.parent s =
    if s = t.scopes.size then parent else t.parent s := by
  by_cases hs : s = t.scopes.size
  · subst hs
    simp [ScopeTree.parent, getElem_push_self]
  · simp [ScopeTree.parent, push, Array.getElem?_push, hs]

theorem kind_push : (t.push kind parent).2.kind s =
    if s = t.scopes.size then kind else t.kind s := by
  by_cases hs : s = t.scopes.size
  · subst hs
    simp [ScopeTree.kind, getElem_push_self]
  · simp [ScopeTree.kind, push, Array.getElem?_push, hs]

end ScopeTree

namespace ScopeHistory.Records

variable {history : ScopeHistory} {t : ScopeTree} {scope : ScopeId}

theorem opened (h : Records history t) (kind : ScopeKind) {parent}
    (hparent : ∀ p ∈ parent, p < t.scopes.size) :
    Records (.opened kind parent :: history) (t.push kind parent).2 where
  size := by simp [ScopeHistory.scopes, ScopeTree.push, h.size]
  shape {s} hs := by
    rw [ScopeTree.kind_push, ScopeTree.parent_push, ScopeHistory.scopes, List.getElem?_append,
      h.size]
    by_cases heq : s = t.scopes.size
    · simp [heq]
    · have hlt : s < t.scopes.size := by
        simp only [ScopeTree.push, Array.size_push] at hs
        omega
      rw [if_neg heq, if_neg heq, if_pos hlt, h.shape hlt]
  latest s name := by
    rw [ScopeTree.lookupLocal, ScopeTree.bindings_push]
    exact h.latest s name
  names s := by
    rw [ScopeTree.localNames, ScopeTree.bindings_push]
    exact h.names s
  parent_lt {s p} hp := by
    rw [ScopeTree.parent_push] at hp
    split at hp
    · subst ‹s = _›
      exact hparent p hp
    · exact h.parent_lt hp

theorem bound (h : Records history t) (hscope : scope < t.scopes.size) (name : String)
    (node : NodeId) : Records (.bound scope name node :: history) (t.bind scope name node) where
  size := by simp [ScopeHistory.scopes, ScopeTree.bind, h.size]
  shape {s} hs := by
    rw [ScopeTree.kind_bind, ScopeTree.parent_bind]
    exact h.shape (by simpa [ScopeTree.bind] using hs)
  latest s other := by
    have hold := h.latest s other
    rw [ScopeTree.lookupLocal] at hold ⊢
    rw [ScopeHistory.latest]
    by_cases hs : scope = s
    · subst hs
      rw [ScopeTree.bindings_bind_self name node hscope]
      by_cases hname : name = other
      · rw [if_pos ⟨rfl, hname⟩, hname, Bindings.lookup_insert_self]
      · rw [if_neg fun hand => hname hand.2, Bindings.lookup_insert_of_ne _ _ (Ne.symm hname), hold]
    · rw [if_neg fun hand => hs hand.1, ScopeTree.bindings_bind_of_ne name node hs, hold]
  names s := by
    have hold := h.names s
    rw [ScopeTree.localNames] at hold ⊢
    rw [names_bound, ← hold]
    by_cases hs : scope = s
    · subst hs
      rw [if_pos rfl, ScopeTree.bindings_bind_self name node hscope]
      exact Bindings.map_fst_insert _ name node
    · rw [if_neg hs, ScopeTree.bindings_bind_of_ne name node hs]
  parent_lt hp := by
    rw [ScopeTree.parent_bind] at hp
    exact h.parent_lt hp

theorem released (h : Records history t) (scope : ScopeId) :
    Records (.released scope :: history) (t.release scope) where
  size := by simp [ScopeHistory.scopes, ScopeTree.release, h.size]
  shape {s} hs := by
    rw [ScopeTree.kind_release, ScopeTree.parent_release]
    exact h.shape (by simpa [ScopeTree.release] using hs)
  latest s other := by
    rw [ScopeTree.lookupLocal, ScopeHistory.latest]
    by_cases hs : scope = s
    · subst hs
      rw [if_pos rfl, ScopeTree.bindings_release_self, List.lookup_nil]
    · rw [if_neg hs, ScopeTree.bindings_release_of_ne t hs]
      exact h.latest s other
  names s := by
    rw [ScopeTree.localNames, ScopeHistory.names, ScopeHistory.boundIn]
    by_cases hs : scope = s
    · subst hs
      rw [if_pos rfl, ScopeTree.bindings_release_self]
      rfl
    · rw [if_neg hs, ScopeTree.bindings_release_of_ne t hs]
      exact h.names s
  parent_lt hp := by
    rw [ScopeTree.parent_release] at hp
    exact h.parent_lt hp

theorem of_builds (h : Builds history t) : Records history t := by
  induction h with
  | start => exact ⟨rfl, nofun, fun _ _ => rfl, fun _ => rfl, nofun⟩
  | opened _ kind _ hparent ih => exact ih.opened kind hparent
  | bound _ _ name node hscope ih => exact ih.bound hscope name node
  | released _ scope _ ih => exact ih.released scope

/-! ## Walking outward -/

/-- The walk ends at a scope without parent: the bound on its steps is never met. -/
theorem around (h : Records history t) {s : Nat} (hs : s < t.scopes.size) :
    Around history s (t.chain s) := by
  induction s using Nat.strongRecOn with
  | _ s ih =>
    have hshape := h.shape hs
    cases hp : t.parent s with
    | none =>
      rw [ScopeTree.chain_of_root hp]
      exact .root (hp ▸ hshape)
    | some parent =>
      have hlt := h.parent_lt hp
      rw [ScopeTree.chain_of_parent h.parent_lt hs hp]
      exact .inner (hp ▸ hshape) (ih parent hlt (Nat.lt_trans hlt hs))

end ScopeHistory.Records

/-- What one place of a walk answers otherwise matters only if no place before it has an answer. -/
theorem exists_append_of_findSome?_ne {α β} {f g : α → Option β} {place}
    (hsame : ∀ a, a ≠ place → f a = g a) {places} (hne : places.findSome? f ≠ places.findSome? g) :
    ∃ nearer further, places = nearer ++ place :: further ∧ ∀ a ∈ nearer, g a = none := by
  induction places with
  | nil => exact absurd rfl hne
  | cons a rest ih =>
    by_cases ha : a = place
    · exact ⟨[], rest, by rw [ha, List.nil_append], nofun⟩
    · rw [List.findSome?_cons, List.findSome?_cons, hsame a ha] at hne
      cases hg : g a with
      | some b =>
        rw [hg] at hne
        exact absurd rfl hne
      | none =>
        rw [hg] at hne
        obtain ⟨nearer, further, rfl, hnearer⟩ := ih hne
        exact ⟨a :: nearer, further, rfl, List.forall_mem_cons.mpr ⟨hg, hnearer⟩⟩

theorem ScopeTree.mem_visibleNames_iff {t : ScopeTree} {s name} :
    name ∈ t.visibleNames s ↔ (t.snapshot s).contains name := by
  simp [visibleNames, snapshot, Snapshot.contains]

/-- A new binding is seen under its name only, from its scope or further in, and only where no scope
in between has that name. -/
theorem ScopeTree.eq_of_lookup_bind_ne {t : ScopeTree} {scope s : ScopeId} {name other node}
    (hparent : ∀ {id parent : Nat}, t.parent id = some parent → parent < id)
    (hscope : scope < t.scopes.size)
    (hne : (t.bind scope name node).lookup s other ≠ t.lookup s other) :
    other = name ∧ ∃ nearer further, t.chain s = nearer ++ scope :: further ∧
      ∀ inner ∈ nearer, t.lookupLocal inner name = none := by
  have hchain : (t.bind scope name node).chain s = t.chain s := by
    rw [chain, chainWithin_congr hparent fun s _ => parent_bind t scope s name node]
    simp [bind, chain]
  have helse : ∀ a, a ≠ scope → (t.bind scope name node).lookupLocal a other =
      t.lookupLocal a other := by
    intro a ha
    rw [lookupLocal, bindings_bind_of_ne name node (Ne.symm ha), lookupLocal]
  rw [lookup, lookup, hchain] at hne
  obtain ⟨nearer, further, hplaces, hnearer⟩ := exists_append_of_findSome?_ne helse hne
  by_cases hname : other = name
  · subst hname
    exact ⟨rfl, nearer, further, hplaces, hnearer⟩
  · -- under another name the scope itself answers as before
    refine absurd ?_ hne
    congr 1
    funext a
    by_cases ha : a = scope
    · rw [ha, lookupLocal, bindings_bind_self name node hscope,
        Bindings.lookup_insert_of_ne _ _ hname, lookupLocal]
    · exact helse a ha

/-- Whatever was done to the scopes, the queries about them agree. The scopes around a scope come to
an end. Looking a name up finds its latest binding that was not released since, in the nearest of
them that has one; something is found if and only if the name is shown to be visible, and if and
only if it is listed. The names are listed and shown innermost scope first, those of one scope each
once and in the order of their first binding since the scope was released last. A new binding
changes what is found only under its name, from where its scope is around, and only if no nearer
scope has that name. -/
theorem scope_queries_agree {history : ScopeHistory} {t : ScopeTree} (h : history.Builds t)
    {s : ScopeId} (hs : s < t.scopes.size) : ∃ around, history.Around s around ∧
      (∀ name, t.lookup s name = around.findSome? (history.latest · name)) ∧
      (∀ name, ((t.lookup s name).isSome ↔ (t.snapshot s).contains name) ∧
        ((t.lookup s name).isSome ↔ name ∈ t.visibleNames s)) ∧
      t.localNames s = history.names s ∧
      t.visibleNames s = around.flatMap history.names ∧
      t.snapshot s = around.map (fun scope => ⟨t.kind scope, history.names scope⟩) ∧
      (∀ scope, (history.names scope).Nodup) ∧
      ∀ scope < t.scopes.size, ∀ name node other,
        (t.bind scope name node).lookup s other ≠ t.lookup s other →
          other = name ∧ ∃ nearer further, around = nearer ++ scope :: further ∧
            ∀ inner ∈ nearer, history.latest inner name = none := by
  have hrecords := ScopeHistory.Records.of_builds h
  have hnames : t.localNames = history.names := funext hrecords.names
  refine ⟨t.chain s, hrecords.around hs, fun name => ?_, fun name => ⟨?_, ?_⟩, hrecords.names s,
    ?_, ?_, fun scope => List.nodup_reverse.mpr (List.nodup_dedup _), ?_⟩
  · simp only [ScopeTree.lookup, hrecords.latest]
  · exact (t.contains_snapshot s name).symm
  · exact (t.contains_snapshot s name).symm.trans ScopeTree.mem_visibleNames_iff.symm
  · rw [ScopeTree.visibleNames, hnames]
  · rw [ScopeTree.snapshot, hnames]
  · intro scope hscope name node other hne
    simp only [← hrecords.latest]
    exact ScopeTree.eq_of_lookup_bind_ne hrecords.parent_lt hscope hne

/-- A module in a prelude: a name is bound, forgotten, and bound again behind another one, which is
itself bound anew. -/
theorem scope_queries_agree_rebound : ∃ (history : ScopeHistory) (t : ScopeTree), history.Builds t ∧
    1 < t.scopes.size ∧ history.names 1 = ["g", "f"] ∧ history.latest 1 "g" = some 5 ∧
      ∃ around, history.Around 1 around ∧ t.visibleNames 1 = around.flatMap history.names := by
  have hroots := (ScopeHistory.Builds.start.opened .preludeScope none (by simp)).opened .moduleScope
    (some 0) (by simp [ScopeTree.push])
  have hfirst := (hroots.bound 0 "+" 0 (by decide)).bound 1 "f" 1 (by decide)
  have hsecond := (hfirst.released 1 (by decide)).bound 1 "g" 3 (by decide)
  have hlast := (hsecond.bound 1 "f" 4 (by decide)).bound 1 "g" 5 (by decide)
  obtain ⟨around, haround, -, -, -, hvisible, -⟩ := scope_queries_agree hlast (s := 1) (by decide)
  exact ⟨_, _, hlast, by decide, by decide, by decide, around, haround, hvisible⟩

end Lamina.Core
