import Lamina.Core.Graph

/-!
# Scopes

A scope binds names to nodes of a core graph, in the order in which they were first bound, and
may have a parent. A name is looked up along the chain of parents, innermost first.
-/

namespace Lamina.Core

/-- What opened a scope. -/
inductive ScopeKind
  /-- The root: the catalog of intrinsics. -/
  | preludeScope
  | moduleScope
  | letScope
  /-- The parameters of one lambda. -/
  | paramScope
deriving DecidableEq, Inhabited, Repr

/-- The word for a kind of scope in messages. -/
def ScopeKind.text : ScopeKind → String
  | preludeScope => "prelude"
  | moduleScope => "module"
  | letScope => "let"
  | paramScope => "lambda"

/-- Names and the nodes they stand for, oldest first. -/
abbrev Bindings := List (String × NodeId)

/-- The bindings with `name` bound to `node`. A name that was bound keeps its place. -/
def Bindings.insert (bindings : Bindings) (name : String) (node : NodeId) : Bindings :=
  match bindings with
  | [] => [(name, node)]
  | (other, old) :: rest =>
    if other = name then (name, node) :: rest else (other, old) :: Bindings.insert rest name node

namespace Bindings

/-- A name that was just bound is found. -/
@[simp]
theorem lookup_insert_self (bindings : Bindings) (name : String) (node : NodeId) :
    (bindings.insert name node).lookup name = some node := by
  induction bindings with
  | nil => simp [Bindings.insert]
  | cons binding rest ih =>
    obtain ⟨other, old⟩ := binding
    by_cases h : other = name
    · simp [Bindings.insert, h]
    · have hb : (name == other) = false := by simpa using Ne.symm h
      simp [Bindings.insert, h, List.lookup_cons, hb, ih]

/-- Binding a name does not change what another one stands for. -/
theorem lookup_insert_of_ne {name other : String} (bindings : Bindings) (node : NodeId)
    (h : other ≠ name) : (bindings.insert name node).lookup other = bindings.lookup other := by
  have hb : (other == name) = false := by simpa using h
  induction bindings with
  | nil => simp [Bindings.insert, List.lookup_cons, hb]
  | cons binding rest ih =>
    obtain ⟨first, old⟩ := binding
    by_cases hf : first = name
    · subst hf
      simp [Bindings.insert, List.lookup_cons, hb]
    · simp [Bindings.insert, hf, List.lookup_cons, ih]

/-- A name that is bound anew keeps its place, and any other one comes last. -/
theorem map_fst_insert (bindings : Bindings) (name : String) (node : NodeId) :
    (bindings.insert name node).map Prod.fst =
      if name ∈ bindings.map Prod.fst then bindings.map Prod.fst
      else bindings.map Prod.fst ++ [name] := by
  induction bindings with
  | nil => simp [Bindings.insert]
  | cons binding rest ih =>
    obtain ⟨first, old⟩ := binding
    by_cases hf : first = name
    · simp [Bindings.insert, hf]
    · by_cases hr : name ∈ rest.map Prod.fst
      · rw [if_pos hr] at ih
        rw [List.map_cons, if_pos (List.mem_cons_of_mem _ hr)]
        simp [Bindings.insert, hf, ih]
      · rw [if_neg hr] at ih
        rw [List.map_cons, if_neg (by simpa [Ne.symm hf] using hr)]
        simp [Bindings.insert, hf, ih]

end Bindings

/-- One scope. -/
structure Scope where
  kind : ScopeKind
  parent : Option ScopeId
  bindings : Bindings
deriving Inhabited, Repr

/-- The names of one scope, as an error shows them. -/
structure Frame where
  kind : ScopeKind
  names : List String
deriving DecidableEq, Inhabited, Repr

/-- The names visible at a point of a program, innermost scope first. -/
abbrev Snapshot := List Frame

namespace Snapshot

/-- Is a name visible? -/
def contains (snapshot : Snapshot) (name : String) : Bool :=
  snapshot.any (·.names.contains name)

/-- One frame in words. Of the prelude only the number of names is told. -/
def frameText (frame : Frame) : String :=
  match frame.kind with
  | .preludeScope => "prelude: " ++ toString frame.names.length ++ " names"
  | kind => kind.text ++ ": [" ++ ", ".intercalate frame.names ++ "]"

/-- A snapshot in words. -/
def text (snapshot : Snapshot) : String :=
  " <- ".intercalate (snapshot.map frameText)

end Snapshot

/-- All scopes of a program. -/
structure ScopeTree where
  scopes : Array Scope
deriving Inhabited, Repr

namespace ScopeTree

/-- The tree without scopes. -/
def empty : ScopeTree := ⟨#[]⟩

/-- Opens a scope; its id is the number of scopes before. -/
def push (t : ScopeTree) (kind : ScopeKind) (parent : Option ScopeId) : ScopeId × ScopeTree :=
  (t.scopes.size, ⟨t.scopes.push ⟨kind, parent, []⟩⟩)

/-- The parent of a scope. -/
def parent (t : ScopeTree) (id : ScopeId) : Option ScopeId :=
  t.scopes[id]?.bind (·.parent)

/-- The kind of a scope. -/
def kind (t : ScopeTree) (id : ScopeId) : ScopeKind :=
  (t.scopes[id]?.map (·.kind)).getD .preludeScope

/-- The bindings of one scope, oldest first. -/
def bindings (t : ScopeTree) (id : ScopeId) : Bindings :=
  (t.scopes[id]?.map (·.bindings)).getD []

/-- Looks a name up in one scope only. -/
def lookupLocal (t : ScopeTree) (id : ScopeId) (name : String) : Option NodeId :=
  (t.bindings id).lookup name

/-- Binds a name in a scope. -/
def bind (t : ScopeTree) (id : ScopeId) (name : String) (node : NodeId) : ScopeTree :=
  ⟨t.scopes.modify id fun scope => { scope with bindings := scope.bindings.insert name node }⟩

/-- Forgets the names of a finished scope. Nodes stay reachable through indirections. -/
def release (t : ScopeTree) (id : ScopeId) : ScopeTree :=
  ⟨t.scopes.modify id fun scope => { scope with bindings := [] }⟩

/-- Binding a name changes the bindings of its scope only. -/
theorem bindings_bind_of_ne {t : ScopeTree} {id other : ScopeId} (name : String) (node : NodeId)
    (h : id ≠ other) : (t.bind id name node).bindings other = t.bindings other := by
  simp [bind, bindings, Array.getElem?_modify, h]

theorem bindings_bind_self {t : ScopeTree} {id : ScopeId} (name : String) (node : NodeId)
    (h : id < t.scopes.size) :
    (t.bind id name node).bindings id = (t.bindings id).insert name node := by
  simp [bind, bindings, Array.getElem_modify, h]

/-- A released scope has no names. -/
@[simp]
theorem bindings_release_self (t : ScopeTree) (id : ScopeId) :
    (t.release id).bindings id = [] := by
  cases h : t.scopes[id]? <;> simp [release, bindings, Array.getElem?_modify, h]

/-- Binding a name changes no parent. -/
@[simp]
theorem parent_bind (t : ScopeTree) (id other : ScopeId) (name : String) (node : NodeId) :
    (t.bind id name node).parent other = t.parent other := by
  by_cases h : id = other
  · subst h
    cases hs : t.scopes[id]? <;> simp [bind, parent, Array.getElem?_modify, hs]
  · simp [bind, parent, Array.getElem?_modify, h]

/-- Releasing a scope changes no parent. -/
@[simp]
theorem parent_release (t : ScopeTree) (id other : ScopeId) :
    (t.release id).parent other = t.parent other := by
  by_cases h : id = other
  · subst h
    cases hs : t.scopes[id]? <;> simp [release, parent, Array.getElem?_modify, hs]
  · simp [release, parent, Array.getElem?_modify, h]

/-- A scope and at most `steps` of its ancestors, innermost first. -/
def chainWithin (t : ScopeTree) : (steps : Nat) → ScopeId → List ScopeId
  | 0, id => [id]
  | steps + 1, id =>
    match t.parent id with
    | none => [id]
    | some parent => id :: t.chainWithin steps parent

/-- A scope and its ancestors, innermost first. There are never more than there are scopes. -/
def chain (t : ScopeTree) (id : ScopeId) : List ScopeId := t.chainWithin t.scopes.size id

/-- Looks a name up in a scope, then in each enclosing one. -/
def lookup (t : ScopeTree) (id : ScopeId) (name : String) : Option NodeId :=
  (t.chain id).findSome? (t.lookupLocal · name)

/-- The names of one scope, oldest first. -/
def localNames (t : ScopeTree) (id : ScopeId) : List String :=
  (t.bindings id).map (·.1)

/-- The names visible from a scope, innermost scope first. -/
def visibleNames (t : ScopeTree) (id : ScopeId) : List String :=
  (t.chain id).flatMap t.localNames

/-- The frames visible from a scope, innermost first. -/
def snapshot (t : ScopeTree) (id : ScopeId) : Snapshot :=
  (t.chain id).map fun scope => ⟨t.kind scope, t.localNames scope⟩

end ScopeTree

end Lamina.Core
