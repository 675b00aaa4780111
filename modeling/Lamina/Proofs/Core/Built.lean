import Mathlib.Data.List.Intervals
import Lamina.Proofs.Core.Lowered

/-!
# Which nodes are made for what

A lowered graph, together with the nodes that were made for each expression. They are numbered one
after the other, so the nodes of an expression are those of an interval, and no two parts of a
source text share a node.
-/

namespace Lamina.Core

open Lamina.Surface (Ident Expr Decl)

mutual

/-- An expression is lowered to the contents of a node. The nodes from `first` up to `last`, and the
scopes from `low` up to `high`, are those that were made on the way. -/
inductive Built (m : Module) :
    (first last low high : Nat) → ScopeId → Names → Expr → NodeKind → Prop
  | var {first low inside names id kind} (h : Resolves names id.name kind) :
      Built m first first low low inside names (.var id) kind
  | con {first low inside names id} :
      Built m first first low low inside names (.con id) (.constructor id.name)
  | lit {first low inside names value span} :
      Built m first first low low inside names (.lit value span) (.literal value)
  | neg {first low high inside names e span arg} (hfunc : m.kind first = .intrinsic .negate)
      (harg : Built m (first + 1) arg low high inside names e (m.kind arg)) :
      Built m first (arg + 1) low high inside names (.neg e span) (.application first arg)
  | binOp {first low mid high inside names op l r span lhs rhs}
      (hop : Resolves names op.name (m.kind first))
      (hlhs : Built m (first + 1) lhs low mid inside names l (m.kind lhs))
      (happlied : m.kind (lhs + 1) = .application first lhs)
      (hrhs : Built m (lhs + 2) rhs mid high inside names r (m.kind rhs)) :
      Built m first (rhs + 1) low high inside names (.binOp op l r span)
        (.application (lhs + 1) rhs)
  | app {first low mid high inside names f a span func arg}
      (hfunc : Built m first func low mid inside names f (m.kind func))
      (harg : Built m (func + 1) arg mid high inside names a (m.kind arg)) :
      Built m first (arg + 1) low high inside names (.app f a span) (.application func arg)
  | cond {first low mid mid' high inside names c t e span test onTrue onFalse}
      (htest : Built m first test low mid inside names c (m.kind test))
      (htrue : Built m (test + 1) onTrue mid mid' inside names t (m.kind onTrue))
      (hfalse : Built m (onTrue + 1) onFalse mid' high inside names e (m.kind onFalse)) :
      Built m first (onFalse + 1) low high inside names (.cond c t e span)
        (.conditional test onTrue onFalse)
  /-- The names of the block come first, then its bodies, and then the body of the `let`. -/
  | letIn {first slots middle last low mid high inside} {names : Names} {decls e span frame kind}
      (hinner : m.scopes.Inner .letScope inside low)
      (hslots : frame.map (·.2) = List.Ico first slots) (hle : first ≤ slots)
      (hblock : BuiltBlock m slots middle (low + 1) mid low (frame :: names) decls frame)
      (hbody : Built m middle last mid high low (frame :: names) e kind) :
      Built m first last low high inside names (.letIn decls e span) kind
  | lambda {first last low high inside names params e span kind}
      (h : BuiltLambda m first last low high inside names params e kind) :
      Built m first last low high inside names (.lambda params e span) kind

/-- A function is lowered to a lambda; its parameters come first, and its body last. -/
inductive BuiltLambda (m : Module) :
    (first last low high : Nat) → ScopeId → Names → List Ident → Expr → NodeKind → Prop
  | mk {first middle low high inside names params e body} (hne : params ≠ [])
      (hinner : m.scopes.Inner .paramScope inside low)
      (hparams : Parameters m names params (m.scopes.bindings low))
      (hnodes : (m.scopes.bindings low).map (·.2) = List.Ico first middle) (hle : first ≤ middle)
      (hbody : Built m middle body (low + 1) high low (m.scopes.bindings low :: names) e
        (m.kind body)) :
      BuiltLambda m first (body + 1) low high inside names params e (.lambda low body)

/-- The bindings of a block are lowered to the nodes of a frame; the nodes and scopes given are
those that were made for their bodies, one body after the other. -/
inductive BuiltBlock (m : Module) :
    (first last low high : Nat) → ScopeId → Names → List Decl → Bindings → Prop
  | nil {first low inside names} : BuiltBlock m first first low low inside names [] []
  | function {first middle last low mid high inside names name params e span rest node frame}
      (hnode : BuiltLambda m first middle low mid inside names params e (m.kind node))
      (hrest : BuiltBlock m middle last mid high inside names rest frame) :
      BuiltBlock m first last low high inside names (.function name params e span :: rest)
        ((name.name, node) :: frame)
  | value {first middle last low mid high inside names name e span rest node frame}
      (hnode : Built m first middle low mid inside names e (m.kind node))
      (hrest : BuiltBlock m middle last mid high inside names rest frame) :
      BuiltBlock m first last low high inside names (.value name e span :: rest)
        ((name.name, node) :: frame)
  | signature {first last low high inside names ids span rest frame}
      (hrest : BuiltBlock m first last low high inside names rest frame) :
      BuiltBlock m first last low high inside names (.signature ids span :: rest) frame

end

/-- The graph of a whole module: the prelude comes first, then the names of the definitions, and
then their bodies. The prelude and the module have the first two scopes. -/
structure BuiltModule (m : Module) (operators : Bool) (tree : Surface.Module) : Prop where
  root : m.root = 0
  top : m.top = 1
  rootKind : m.scopes.kind 0 = .preludeScope
  rootParent : m.scopes.parent 0 = none
  inner : m.scopes.Inner .moduleScope 0 1
  prelude : LoweredPrelude m operators (m.scopes.bindings m.root)
  preludeNodes : (m.scopes.bindings m.root).map (·.2) =
    List.range (Lowering.preludeNames operators).length
  definitions : ∃ slots, m.definitions.map (·.2) =
      List.Ico (Lowering.preludeNames operators).length slots ∧
    (Lowering.preludeNames operators).length ≤ slots ∧
    BuiltBlock m slots m.graph.size 2 m.scopes.scopes.size m.top
      [m.definitions, m.scopes.bindings m.root] tree.decls m.definitions

section

variable {m : Module} {operators : Bool} {tree : Surface.Module}

mutual

theorem Built.lowered {first last low high inside names e kind} :
    Built m first last low high inside names e kind → Lowered m inside names e kind
  | .var h => .var h
  | .con => .con
  | .lit => .lit
  | .neg hfunc harg => .neg hfunc harg.lowered
  | .binOp hop hlhs happlied hrhs => .binOp hop hlhs.lowered happlied hrhs.lowered
  | .app hfunc harg => .app hfunc.lowered harg.lowered
  | .cond htest htrue hfalse => .cond htest.lowered htrue.lowered hfalse.lowered
  | .letIn hinner _ _ hblock hbody => .letIn hinner hblock.lowered hbody.lowered
  | .lambda h => .lambda h.lowered

theorem BuiltLambda.lowered {first last low high inside names params e kind} :
    BuiltLambda m first last low high inside names params e kind →
      LoweredLambda m inside names params e kind
  | .mk _ hinner hparams _ _ hbody => .mk hinner hparams hbody.lowered

theorem BuiltBlock.lowered {first last low high inside names decls frame} :
    BuiltBlock m first last low high inside names decls frame →
      LoweredBlock m inside names decls frame
  | .nil => .nil
  | .function hnode hrest => .function hnode.lowered hrest.lowered
  | .value hnode hrest => .value hnode.lowered hrest.lowered
  | .signature hrest => .signature hrest.lowered

end

theorem BuiltModule.lowered (h : BuiltModule m operators tree) : LoweredModule m operators tree := by
  obtain ⟨_, _, _, hblock⟩ := h.definitions
  exact ⟨h.prelude, hblock.lowered⟩

end

end Lamina.Core
