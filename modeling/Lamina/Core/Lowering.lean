import Lamina.Core.Error
import Lamina.Core.Reach
import Lamina.Event
import Lamina.Surface.Tree

/-!
# Lowering

A syntax tree becomes a core graph. A block of declarations is lowered in two phases over one
scope: first every binding gets a reserved node and its name is bound to it, then every body is
lowered and written into its node. So a name may be used before it is bound, and every use of a
name leads to the one node of its definition.
-/

namespace Lamina.Core

open Lamina.Surface (Ident Expr Decl)

/-- How a module is lowered. -/
structure LowerOptions where
  /-- Is an operator that is bound nowhere an error, even if it names an intrinsic? -/
  strict : Bool := false
  /-- Does the prelude bind operators? -/
  preludeOperators : Bool := true
  /-- The name of the definition that is run. -/
  entry : String := "main"
deriving Inhabited, Repr

/-- A change that lowering makes to the graph. -/
inductive Change
  /-- A node is added; its id is the number of nodes before. -/
  | added (kind : NodeKind) (name : Option String)
  /-- A node gets new contents. -/
  | filled (id : NodeId) (kind : NodeKind)
deriving DecidableEq, Inhabited, Repr

/-- What lowering builds up. -/
structure LowerState where
  graph : Graph
  scopes : ScopeTree
  /-- What was reported, oldest first. -/
  events : Array Event
  /-- What was done to the graph, oldest first. -/
  changes : Array Change

/-- Lowering builds up a graph and may fail; what was reported before a failure is kept. -/
abbrev LowerM := ExceptT LowerError (StateM LowerState)

namespace Lowering

/-- Reports an event. -/
def report (event : Event) : LowerM Unit :=
  modify fun st => { st with events := st.events.push event }

/-- Adds a node. -/
def alloc (kind : NodeKind) (name : Option String) : LowerM NodeId :=
  modifyGet fun st =>
    let (id, graph) := st.graph.alloc kind name
    (id, { st with graph, changes := st.changes.push (.added kind name) })

/-- Gives a reserved node its contents. -/
def fill (id : NodeId) (kind : NodeKind) : LowerM Unit :=
  modify fun st =>
    { st with graph := st.graph.fill id kind, changes := st.changes.push (.filled id kind) }

/-- Opens a scope inside another. -/
def openScope (kind : ScopeKind) (parent : Option ScopeId) : LowerM ScopeId :=
  modifyGet fun st =>
    let (id, scopes) := st.scopes.push kind parent
    (id, { st with scopes })

/-- Forgets the names of a finished scope. -/
def closeScope (id : ScopeId) : LowerM Unit :=
  modify fun st => { st with scopes := st.scopes.release id }

/-- Binds a name in a scope. -/
def bind (scope : ScopeId) (name : String) (node : NodeId) : LowerM Unit :=
  modify fun st => { st with scopes := st.scopes.bind scope name node }

/-- Fails at a name that the scope itself binds already. -/
def requireFresh (scope : ScopeId) (id : Ident) : LowerM Unit := do
  match (← get).scopes.lookupLocal scope id.name with
  | some _ => throw (.duplicateDefinition id.name id.span)
  | none => return ()

/-- Fails at a name that is not in scope. -/
def unresolved {α : Type} (scope : ScopeId) (id : Ident) : LowerM α := do
  throw (.unresolved id.name ((← get).scopes.snapshot scope) id.span)

/-! ## The prelude -/

/-- The names that the prelude binds: all named intrinsics, and some operators if wanted. -/
def preludeNames (operators : Bool) : List (Intrinsic × String) :=
  Intrinsic.all.flatMap fun op =>
    (op.sourceNames.filter fun name =>
      !isOperatorName name || (operators && preludeOperators.contains name)).map (op, ·)

/-- Binds intrinsics in a scope. -/
def bindIntrinsics (scope : ScopeId) : List (Intrinsic × String) → LowerM Unit
  | [] => return ()
  | (op, name) :: rest => do
    bind scope name (← alloc (.intrinsic op) (some name))
    bindIntrinsics scope rest

/-! ## Names -/

/-- A reference to a name in lower case. -/
def plainName (scope : ScopeId) (id : Ident) : LowerM NodeKind := do
  match (← get).scopes.lookup scope id.name with
  | some target => return .indirection target
  | none => unresolved scope id

/-- A reference to an operator. One that is bound nowhere falls back to the intrinsic of its
name, unless lowering is strict. -/
def operator (options : LowerOptions) (scope : ScopeId) (id : Ident) : LowerM NodeKind := do
  match (← get).scopes.lookup scope id.name with
  | some target => return .indirection target
  | none =>
    match if options.strict then none else Intrinsic.ofSourceName? id.name with
    | some op =>
      report (.operatorFallback id.name op)
      return .intrinsic op
    | none => unresolved scope id

/-! ## Blocks and expressions -/

/-- The first phase of a block: reserves a node for each binding. The answer has an entry for
each declaration. -/
def reserveBlock (scope : ScopeId) : List Decl → LowerM (List (Option NodeId))
  | [] => return []
  | decl :: rest => do
    match decl with
    | .function name .. | .value name .. =>
      requireFresh scope name
      let slot ← alloc .noForm (some name.name)
      bind scope name.name slot
      report (.reserved slot name.name)
      return some slot :: (← reserveBlock scope rest)
    | .signature names _ =>
      report (.signatureIgnored (names.map (·.name)))
      return none :: (← reserveBlock scope rest)
    | .unsupported what span => throw (.unsupported what.text span)

/-- Binds parameters, the first of which has the index given. A wildcard takes a place and
cannot be referred to. -/
def bindParams (scope : ScopeId) : (index : Nat) → List Ident → LowerM Unit
  | _, [] => return ()
  | index, param :: rest => do
    let node ← alloc .placeholder (some param.name)
    if param.name = "_" then bind scope ("_@" ++ toString index) node
    else
      requireFresh scope param
      bind scope param.name node
    bindParams scope (index + 1) rest

/-- A new node with the contents that an action yields. -/
def child (contents : LowerM NodeKind) : LowerM NodeId := do
  alloc (← contents) none

/-- A function with the parameters given; `body` lowers its body in their scope. -/
def lambda (scope : ScopeId) (params : List Ident) (body : ScopeId → LowerM NodeKind) :
    LowerM NodeKind := do
  let inner ← openScope .paramScope (some scope)
  bindParams inner 0 params
  return .lambda inner (← child (body inner))

mutual

/-- Lowers an expression to the contents of a node. Whether that node is new or reserved is up
to the caller. -/
def expr (options : LowerOptions) (scope : ScopeId) : Expr → LowerM NodeKind
  | .var id => if isOperatorName id.name then operator options scope id else plainName scope id
  | .con id => return .constructor id.name
  | .lit value _ => return .literal value
  | .neg arg _ => do
    let func ← alloc (.intrinsic .negate) (some "negate")
    let arg ← child (expr options scope arg)
    return .application func arg
  | .binOp op lhs rhs _ => do
    let func ← alloc (← operator options scope op) none
    let lhs ← child (expr options scope lhs)
    let applied ← alloc (.application func lhs) none
    let rhs ← child (expr options scope rhs)
    return .application applied rhs
  | .app func arg _ => do
    let func ← child (expr options scope func)
    let arg ← child (expr options scope arg)
    return .application func arg
  | .cond test onTrue onFalse _ => do
    let test ← child (expr options scope test)
    let onTrue ← child (expr options scope onTrue)
    let onFalse ← child (expr options scope onFalse)
    return .conditional test onTrue onFalse
  | .letIn decls body _ => do
    let inner ← openScope .letScope (some scope)
    let slots ← reserveBlock inner decls
    fillBlock options inner decls slots
    let kind ← expr options inner body
    closeScope inner
    return kind
  | .lambda params body _ => lambda scope params fun inner => expr options inner body
  | .caseOf scrutinee span => throw (.unsupported (Expr.caseOf scrutinee span).describe span)
  | .doBlock span => throw (.unsupported (Expr.doBlock span).describe span)
  | .tuple elems span => throw (.unsupported (Expr.tuple elems span).describe span)
  | .list elems span => throw (.unsupported (Expr.list elems span).describe span)

/-- The second phase of a block: lowers each body into its reserved node. -/
def fillBlock (options : LowerOptions) (scope : ScopeId) :
    List Decl → List (Option NodeId) → LowerM Unit
  | .function _ params body _ :: rest, some slot :: slots => do
    fill slot (← lambda scope params fun inner => expr options inner body)
    fillBlock options scope rest slots
  | .value _ body _ :: rest, some slot :: slots => do
    fill slot (← expr options scope body)
    fillBlock options scope rest slots
  | _ :: rest, _ :: slots => fillBlock options scope rest slots
  | _, _ => return ()

end

/-! ## Modules -/

/-- Lowers a module and checks that no reserved node was left without contents. -/
def program (options : LowerOptions) (tree : Surface.Module) : LowerM Module := do
  let root ← openScope .preludeScope none
  bindIntrinsics root (preludeNames options.preludeOperators)
  let top ← openScope .moduleScope (some root)
  let slots ← reserveBlock top tree.decls
  fillBlock options top tree.decls slots
  let st ← get
  let name := (tree.name.map (·.name)).getD "Main"
  let m : Module := ⟨name, st.graph, st.scopes, root, top, options.entry⟩
  match m.unfilled? with
  | some id => throw (.unfilledNode (m.label id))
  | none =>
    report (.lowered m.name m.definitions.length m.graph.size)
    m.definitions.forM fun (name, id) => report (.defined m name id)
    return m

/-- The state before anything is lowered. -/
def initial : LowerState := ⟨.empty, .empty, #[], #[]⟩

end Lowering

/-- The core graph of a syntax tree, and what was reported on the way. -/
def lowerModule (options : LowerOptions) (tree : Surface.Module) :
    Except LowerError Module × List Event :=
  let (result, st) := (Lowering.program options tree).run.run Lowering.initial
  (result, st.events.toList)

/-- What lowering a syntax tree does to the graph, oldest change first. -/
def lowerHistory (options : LowerOptions) (tree : Surface.Module) : List Change :=
  ((Lowering.program options tree).run.run Lowering.initial).2.changes.toList

end Lamina.Core
