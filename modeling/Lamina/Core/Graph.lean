import Lamina.Intrinsic

/-!
# Core graphs

A program is lowered to a graph. Nodes live in one table and are named by their index, so two
references to a definition share its node. A node owns its children; an indirection refers to a
node without owning it, and these edges may form cycles.
-/

namespace Lamina.Core

/-- The index of a node in its graph. -/
abbrev NodeId := Nat

/-- The index of a scope in its scope tree. -/
abbrev ScopeId := Nat

/-- How messages name a node that has no name of its own. -/
def nodeText (id : NodeId) : String := "n" ++ toString id

/-- A constant of the source language. -/
inductive Literal
  | int (value : Int64)
  | str (text : String)
deriving DecidableEq, Inhabited, Repr

/-- What a node stands for. -/
inductive NodeKind
  /-- A reserved node whose contents are not known yet. -/
  | noForm
  /-- A parameter of a lambda. -/
  | placeholder
  | constructor (name : String)
  /-- A reference to a definition, a parameter or an intrinsic. -/
  | indirection (target : NodeId)
  | intrinsic (op : Intrinsic)
  | application (func arg : NodeId)
  /-- A function. Its parameters are the bindings of the scope `params`, in order. -/
  | lambda (params : ScopeId) (body : NodeId)
  | literal (value : Literal)
  | conditional (cond onTrue onFalse : NodeId)
deriving DecidableEq, Inhabited, Repr

namespace NodeKind

/-- The word for a kind of node in an exported graph. -/
def tag : NodeKind → String
  | noForm => "no_form"
  | placeholder => "placeholder"
  | constructor _ => "constructor"
  | indirection _ => "indirection"
  | intrinsic _ => "intrinsic"
  | application .. => "application"
  | lambda .. => "lambda"
  | literal _ => "literal"
  | conditional .. => "conditional"

/-- The nodes that a node owns, in order. The target of an indirection is not owned. -/
def children : NodeKind → List NodeId
  | application func arg => [func, arg]
  | lambda _ body => [body]
  | conditional cond onTrue onFalse => [cond, onTrue, onFalse]
  | _ => []

/-- The nodes that a node mentions: its children, and the target of an indirection. -/
def successors : NodeKind → List NodeId
  | indirection target => [target]
  | kind => kind.children

end NodeKind

/-- A node and the name of the binding it was made for. -/
structure Node where
  kind : NodeKind
  name : Option String
deriving DecidableEq, Inhabited, Repr

/-- The table of nodes. -/
structure Graph where
  nodes : Array Node
deriving Inhabited, Repr

namespace Graph

/-- The graph without nodes. -/
def empty : Graph := ⟨#[]⟩

/-- The number of nodes. -/
def size (g : Graph) : Nat := g.nodes.size

/-- Adds a node; its id is the number of nodes before. -/
def alloc (g : Graph) (kind : NodeKind) (name : Option String) : NodeId × Graph :=
  (g.size, ⟨g.nodes.push ⟨kind, name⟩⟩)

/-- Adds a node that can be referred to before its contents are known. -/
def reserve (g : Graph) (name : String) : NodeId × Graph := g.alloc .noForm (some name)

/-- Gives a reserved node its contents; its id and name stay. -/
def fill (g : Graph) (id : NodeId) (kind : NodeKind) : Graph :=
  ⟨g.nodes.modify id fun node => { node with kind }⟩

/-- The kind of a node. An id outside the table counts as a node without form. -/
def kind (g : Graph) (id : NodeId) : NodeKind :=
  match g.nodes[id]? with
  | some node => node.kind
  | none => .noForm

/-- The name of a node. -/
def name (g : Graph) (id : NodeId) : Option String :=
  g.nodes[id]?.bind (·.name)

@[simp]
theorem size_alloc (g : Graph) (kind : NodeKind) (name : Option String) :
    (g.alloc kind name).2.size = g.size + 1 :=
  Array.size_push _

/-- The new node has the kind it was made with. -/
@[simp]
theorem kind_alloc_self (g : Graph) (kind : NodeKind) (name : Option String) :
    (g.alloc kind name).2.kind g.size = kind := by
  simp [Graph.kind, alloc, size]

/-- A new node leaves the others as they are. -/
theorem kind_alloc_of_lt {g : Graph} {id : NodeId} (kind : NodeKind) (name : Option String)
    (h : id < g.size) : (g.alloc kind name).2.kind id = g.kind id := by
  have hne : id ≠ g.nodes.size := Nat.ne_of_lt h
  simp [Graph.kind, alloc, Array.getElem?_push, hne]

@[simp]
theorem size_fill (g : Graph) (id : NodeId) (kind : NodeKind) : (g.fill id kind).size = g.size :=
  Array.size_modify

/-- A node that is filled has the new contents. -/
theorem kind_fill_self {g : Graph} {id : NodeId} (kind : NodeKind) (h : id < g.size) :
    (g.fill id kind).kind id = kind := by
  have hid : id < g.nodes.size := h
  simp [Graph.kind, fill, Array.getElem_modify, hid]

/-- Filling a node leaves the others as they are. -/
theorem kind_fill_of_ne {g : Graph} {id other : NodeId} (kind : NodeKind) (h : id ≠ other) :
    (g.fill id kind).kind other = g.kind other := by
  simp [Graph.kind, fill, Array.getElem?_modify, h]

/-- Filling a node changes no name. -/
@[simp]
theorem name_fill (g : Graph) (id other : NodeId) (kind : NodeKind) :
    (g.fill id kind).name other = g.name other := by
  by_cases h : id = other
  · subst h
    cases hn : g.nodes[id]? <;> simp [Graph.name, fill, Array.getElem?_modify, hn]
  · simp [Graph.name, fill, Array.getElem?_modify, h]

/-- How messages name a node: by its name, else by its id. -/
def label (g : Graph) (id : NodeId) : String := (g.name id).getD (nodeText id)

/-- Follows at most `steps` indirections. -/
def resolveWithin (g : Graph) : (steps : Nat) → NodeId → NodeId
  | 0, id => id
  | steps + 1, id =>
    match g.kind id with
    | .indirection target => g.resolveWithin steps target
    | _ => id

/-- Follows indirections to the first node that is not one. On a cycle it stops somewhere on
it: one step more than there are nodes is enough to know. -/
def resolve (g : Graph) (id : NodeId) : NodeId := g.resolveWithin (g.size + 1) id

end Graph

end Lamina.Core
