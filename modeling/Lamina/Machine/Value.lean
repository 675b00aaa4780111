import Lamina.Flat.Program
import Lamina.Machine.Error

/-!
# Run-time values

Integers, strings, closures and constructors. A closure holds the arguments it has been applied to.
Applying it to one more yields a new closure, or, once it has as many as its arity, a call; the
closure itself never changes, so a partial application can be shared.
-/

namespace Lamina.Machine

open Lamina.Flat (Callee)

/-- A value of a running program. -/
inductive Value
  | int (n : Int64)
  | str (text : String)
  | closure (callee : Callee) (arity : Nat) (args : List Value)
  /-- A constructor; tag zero without fields is the unit value. -/
  | con (tag : Nat) (fields : List Value)
deriving Inhabited, Repr

namespace Value

/-- The unit value. -/
def unit : Value := con 0 []

/-- A truth value. -/
def ofBool (b : Bool) : Value := int (if b then 1 else 0)

/-- Is this the unit value? -/
def isUnit : Value → Bool
  | con 0 [] => true
  | _ => false

/-- The word for a kind of value in messages. -/
def kind : Value → String
  | int _ => "int"
  | str _ => "string"
  | closure .. => "closure"
  | con .. => "constructor"

/-- The integer that a value is. -/
def toInt? : Value → Option Int64
  | int n => some n
  | _ => none

/-- How a value is printed. -/
def text : Value → String
  | int n => toString n.toInt
  | str text => text
  | closure .. => "<closure>"
  | con tag _ => "<con " ++ toString tag ++ ">"

mutual

/-- Are two values built alike? -/
def same : Value → Value → Bool
  | int n, int k => n == k
  | str s, str t => s == t
  | closure callee arity args, closure callee' arity' args' =>
    callee == callee' && arity == arity' && sameAll args args'
  | con tag fields, con tag' fields' => tag == tag' && sameAll fields fields'
  | _, _ => false

/-- Are two lists of values built alike? -/
def sameAll : List Value → List Value → Bool
  | [], [] => true
  | a :: as, b :: bs => same a b && sameAll as bs
  | _, _ => false

end

end Value

/-- Applies a value to one argument; `invoke` carries out the call of a closure that has all its
arguments. -/
def apply {m : Type → Type} [Monad m] [MonadExceptOf RunError m]
    (invoke : Callee → List Value → m Value) (func arg : Value) : m Value :=
  match func with
  | .closure callee arity args =>
    let args := args ++ [arg]
    if args.length < arity then return .closure callee arity args
    else if arity = 0 ∨ Flat.maxArity < arity then throw (.unsupportedArity arity)
    else invoke callee args
  | other => throw (.notAClosure other.kind)

end Lamina.Machine
