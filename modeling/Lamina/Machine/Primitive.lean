import Lamina.Machine.Value

/-!
# Intrinsics at work

What each intrinsic does to values. Arithmetic is that of 64-bit words and wraps; division truncates
toward zero, and a zero divisor is an error. Comparisons answer one or zero.
-/

namespace Lamina.Machine

namespace Primitive

/-- The value as an integer, for the intrinsic `op`. -/
def int (op : Intrinsic) (v : Value) : Except RunError Int64 :=
  match v with
  | .int n => .ok n
  | other => .error (.typeMismatch op.name "int" other.kind)

/-- Combines two integers. -/
def arith (op : Intrinsic) (f : Int64 → Int64 → Int64) (a b : Value) : Except RunError Value := do
  let a ← int op a
  let b ← int op b
  return .int (f a b)

/-- Combines two integers, the second of which may not be zero. -/
def divide (op : Intrinsic) (f : Int64 → Int64 → Int64) (a b : Value) : Except RunError Value := do
  let a ← int op a
  let b ← int op b
  if b = 0 then throw .divisionByZero else return .int (f a b)

/-- Compares two integers. -/
def compare (op : Intrinsic) (f : Int64 → Int64 → Bool) (a b : Value) : Except RunError Value := do
  let a ← int op a
  let b ← int op b
  return .ofBool (f a b)

/-- Are two values equal? Integers, strings and tags can be compared, each with their own kind. -/
def equal (op : Intrinsic) (a b : Value) : Except RunError Bool :=
  match a, b with
  | .int x, .int y => .ok (x == y)
  | .str x, .str y => .ok (x == y)
  | .con x _, .con y _ => .ok (x == y)
  | .closure .., _ => .error (.typeMismatch op.name "comparable values" a.kind)
  | _, _ => .error (.typeMismatch op.name "comparable values" b.kind)

/-- An intrinsic of one argument: its value, and the text it writes. -/
def unary (op : Intrinsic) (a : Value) : Except RunError (Value × String) :=
  match op with
  | .negate => do return (.int (-(← int op a)), "")
  | .showValue => .ok (.str a.text, "")
  | _ =>
    match a with
    | .str text => .ok (.unit, text ++ "\n")
    | other => .error (.typeMismatch op.name "string" other.kind)

/-- An intrinsic of two arguments. -/
def binary (op : Intrinsic) (a b : Value) : Except RunError Value :=
  match op with
  | .plus => arith op (· + ·) a b
  | .minus => arith op (· - ·) a b
  | .mult => arith op (· * ·) a b
  | .div => divide op (· / ·) a b
  | .mod => divide op (· % ·) a b
  | .eq => do return .ofBool (← equal op a b)
  | .neq => do return .ofBool !(← equal op a b)
  | .lt => compare op (fun x y => decide (x < y)) a b
  | .lte => compare op (fun x y => decide (x ≤ y)) a b
  | .gt => compare op (fun x y => decide (y < x)) a b
  | _ => compare op (fun x y => decide (y ≤ x)) a b

end Primitive

/-- Calls an intrinsic: its value, and the text it writes. -/
def callIntrinsic (op : Intrinsic) (args : List Value) : Except RunError (Value × String) :=
  if args.length = op.arity then
    match args with
    | [a] => Primitive.unary op a
    | [a, b] => do return (← Primitive.binary op a b, "")
    | _ => .error (.arityMismatch op.arity args.length)
  else .error (.arityMismatch op.arity args.length)

end Lamina.Machine
