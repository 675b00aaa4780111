import Lamina.Core.Scope

/-!
# Core modules

A lowered program: its graph, its scopes, and which scope holds the top-level definitions.
-/

namespace Lamina.Core

/-- A program as a core graph. -/
structure Module where
  name : String
  graph : Graph
  scopes : ScopeTree
  /-- The scope of the intrinsics. -/
  root : ScopeId
  /-- The scope of the top-level definitions. -/
  top : ScopeId
  /-- The name of the definition that is run. -/
  entry : String
deriving Inhabited, Repr

namespace Module

/-- The top-level definitions, in source order. -/
def definitions (m : Module) : Bindings := m.scopes.bindings m.top

/-- The node of a top-level definition. -/
def definition? (m : Module) (name : String) : Option NodeId := m.scopes.lookupLocal m.top name

/-- Is a node a top-level definition? -/
def isDefinition (m : Module) (id : NodeId) : Bool := m.definitions.any (·.2 == id)

/-- The kind of a node. -/
def kind (m : Module) (id : NodeId) : NodeKind := m.graph.kind id

/-- How messages name a node. -/
def label (m : Module) (id : NodeId) : String := m.graph.label id

/-- The parameters of a lambda, in order; none for any other node. -/
def params (m : Module) (id : NodeId) : List NodeId :=
  match m.kind id with
  | .lambda scope _ => (m.scopes.bindings scope).map (·.2)
  | _ => []

end Module

end Lamina.Core
