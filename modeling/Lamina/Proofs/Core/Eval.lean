import Lamina.Core.Module
import Lamina.Proofs.Reference

/-!
# The meaning of a core graph

A reference evaluator for core graphs. An environment holds the values of parameters. A lambda is a
closure over the environment at hand, and its body is evaluated once all its parameters are
supplied; a use of any other binding evaluates the binding again. Intrinsics do what they do in a
running program; for that, constructors have numbers.
-/

namespace Lamina.Core

open Lamina.Reference (EvalM)

/-- A lambda, its body and the values of the parameters around it, innermost first. -/
structure Closure where
  lambda : NodeId
  body : NodeId
  env : List (NodeId × Reference.Value Closure)

/-- A value of an evaluation. -/
abbrev Value := Reference.Value Closure

/-- The values of parameters, innermost first. -/
abbrev Env := List (NodeId × Value)

/-- The value of a parameter. -/
def Env.get (m : Module) (env : Env) (id : NodeId) : EvalM Value :=
  match env.lookup id with
  | some v => return v
  | none => throw (.undefinedVariable (m.label id))

/-- The number of parameters of a closure. -/
def Closure.arity (m : Module) (c : Closure) : Nat := (m.params c.lambda).length

/-- The environment of the body of a closure in a call. -/
def Closure.bind (m : Module) (c : Closure) (args : List Value) : Env :=
  ((m.params c.lambda).zip args).reverse ++ c.env

/-- The value of a node. `fuel` bounds the evaluation as a whole, and `nest` how many calls of
lambdas may nest. -/
def eval (m : Module) (number : String → Nat) :
    (fuel nest : Nat) → Env → NodeId → EvalM Value
  | 0, _, _, _ => EvalM.unfinished
  | fuel + 1, nest, env, id =>
    match m.kind id with
    | .noForm => throw (.undefinedVariable (m.label id))
    | .placeholder => env.get m id
    | .constructor name => return .ofConstructor name
    | .intrinsic op => return .prim op []
    | .literal (.int n) => return .int n
    | .literal (.str text) => return .str text
    | .lambda _ body => return .closure ⟨id, body, env⟩ []
    | .indirection target => eval m number fuel nest env target
    | .application func arg => do
      let func ← eval m number fuel nest env func
      let arg ← eval m number fuel nest env arg
      let call := Reference.within nest fun nest c args =>
        eval m number fuel nest (c.bind m args) c.body
      Reference.apply number (·.arity m) call func arg
    | .conditional test onTrue onFalse => do
      if ← Reference.condition number (← eval m number fuel nest env test) then
        eval m number fuel nest env onTrue
      else eval m number fuel nest env onFalse

end Lamina.Core
