import Lamina.Core.Lowering
import Lamina.Proofs.Reference

/-!
# The meaning of a syntax tree

A reference evaluator for syntax trees. Names are looked up innermost first: the parameters of
lambdas, the blocks of declarations, and at last the prelude. The bindings of a block may use each
other. A binding without parameters is evaluated again at each use, in the environment of its block.
A name that is bound nowhere is that of an intrinsic, and prefix minus is one whatever is bound.
-/

namespace Lamina.Surface

open Lamina.Reference (EvalM)

mutual

/-- A function: its parameters, its body and the scopes around it, innermost first. -/
structure Closure where
  params : List Ident
  body : Expr
  env : List Frame

/-- A scope. -/
inductive Frame
  /-- The parameters of a lambda and their values. -/
  | params (names : List Ident) (values : List (Reference.Value Closure))
  | block (decls : List Decl)

end

/-- A value of an evaluation. -/
abbrev Value := Reference.Value Closure

/-- The scopes at some place, innermost first. The prelude is around all of them. -/
abbrev Env := List Frame

/-- What is evaluated: a parameter has a value already, anything else is an expression at its place.
-/
inductive Subject
  | value (v : Value)
  | expr (env : Env) (e : Expr)

/-! ## Names -/

/-- The value of a parameter. A wildcard binds nothing. -/
def findParam (name : String) : List Ident → List Value → Option Value
  | param :: params, v :: values =>
    if param.name = name ∧ name ≠ "_" then some v else findParam name params values
  | _, _ => none

/-- What a name is bound to in a block. A function is a binding to a lambda. -/
def definition? (name : String) : List Decl → Option Expr
  | [] => none
  | .function id params body span :: rest =>
    if id.name = name then some (.lambda params body span) else definition? name rest
  | .value id body _ :: rest => if id.name = name then some body else definition? name rest
  | _ :: rest => definition? name rest

/-- What a name is bound to in the prelude, with or without operators. -/
def preludeValue? (operators : Bool) (name : String) : Option Value :=
  ((Core.Lowering.preludeNames operators).find? (·.2 == name)).map fun entry => .prim entry.1 []

/-- What a name stands for. A binding of a block belongs to the scopes from that block on. -/
def resolve (operators : Bool) (name : String) : Env → Option Subject
  | [] => (preludeValue? operators name).map .value
  | .params names values :: env =>
    match findParam name names values with
    | some v => some (.value v)
    | none => resolve operators name env
  | .block decls :: env =>
    match definition? name decls with
    | some e => some (.expr (.block decls :: env) e)
    | none => resolve operators name env

/-- The intrinsic with a name that is bound nowhere. -/
def catalog (name : String) : EvalM Value :=
  match Intrinsic.ofSourceName? name with
  | some op => return .prim op []
  | none => throw (.undefinedVariable name)

/-- An expression inside its blocks: a let expression is its body with one more scope around it. -/
def Expr.enter : Expr → Env → Env × Expr
  | .letIn decls body _, env => body.enter (.block decls :: env)
  | e, env => (env, e)

/-! ## Evaluation -/

/-- The number of parameters of a closure. -/
def Closure.arity (c : Closure) : Nat := c.params.length

/-- The body of a closure in a call. -/
def Closure.call (c : Closure) (args : List Value) : Subject :=
  .expr (.params c.params args :: c.env) c.body

/-- The value of a subject. `fuel` bounds the evaluation as a whole, and `nest` how many calls of
functions may nest. Constructs that are refused have no meaning. -/
def eval (operators : Bool) (number : String → Nat) : (fuel nest : Nat) → Subject → EvalM Value
  | 0, _, _ => EvalM.unfinished
  | _ + 1, _, .value v => return v
  | fuel + 1, nest, .expr env e =>
    let apply := Reference.apply number Closure.arity (Reference.within nest fun nest c args =>
      eval operators number fuel nest (c.call args))
    let (env, e) := e.enter env
    match e with
    | .var id =>
      match resolve operators id.name env with
      | some subject => eval operators number fuel nest subject
      | none => catalog id.name
    | .con id => return .ofConstructor id.name
    | .lit (.int n) _ => return .int n
    | .lit (.str text) _ => return .str text
    | .neg arg _ => do
      apply (.prim .negate []) (← eval operators number fuel nest (.expr env arg))
    | .binOp op lhs rhs span => do
      -- the operator applied to its left side, and then to its right side
      let func ← eval operators number fuel nest (.expr env (.app (.var op) lhs span))
      let arg ← eval operators number fuel nest (.expr env rhs)
      apply func arg
    | .app func arg _ => do
      let func ← eval operators number fuel nest (.expr env func)
      let arg ← eval operators number fuel nest (.expr env arg)
      apply func arg
    | .cond test onTrue onFalse _ => do
      let test ← eval operators number fuel nest (.expr env test)
      if ← Reference.condition number test then eval operators number fuel nest (.expr env onTrue)
      else eval operators number fuel nest (.expr env onFalse)
    | .lambda params body _ => return .closure ⟨params, body, env⟩ []
    | _ => EvalM.unfinished

end Lamina.Surface
