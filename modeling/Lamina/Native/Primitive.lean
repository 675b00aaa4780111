import Lamina.Native.Heap

/-!
# Intrinsics of the native program

The intrinsics as they work on cells. Sums, differences and products are computed in unsigned words,
which wrap. A divisor of minus one is handled apart, so that no signed operation overflows. Texts
are compared up to their first zero character.
-/

namespace Lamina.Native

variable {κ : Type}

namespace Primitive

/-- The integer at an address, for the intrinsic `op`. -/
def int (op : Intrinsic) (address : Address) : NativeM κ Int64 := do
  match ← load address with
  | .int n => return n
  | other => throw (.typeMismatch op.name "int" other.kind)

/-- Combines two integers as unsigned words. -/
def arith (op : Intrinsic) (f : UInt64 → UInt64 → UInt64) (a b : Address) :
    NativeM κ Address := do
  let x ← int op a
  let y ← int op b
  alloc (.int (f x.toUInt64 y.toUInt64).toInt64)

/-- The quotient, truncated toward zero. -/
def quotient (x y : Int64) : Int64 :=
  if y = -1 then (0 - x.toUInt64).toInt64 else x / y

/-- The remainder, which has the sign of the dividend. -/
def remainder (x y : Int64) : Int64 :=
  if y = -1 then 0 else x % y

/-- Combines two integers, the second of which may not be zero. -/
def divide (op : Intrinsic) (f : Int64 → Int64 → Int64) (a b : Address) : NativeM κ Address := do
  let x ← int op a
  let y ← int op b
  if y = 0 then throw .divisionByZero else alloc (.int (f x y))

/-- A truth value. -/
def allocBool (b : Bool) : NativeM κ Address := alloc (.int (if b then 1 else 0))

/-- Compares two integers. -/
def compare (op : Intrinsic) (f : Int64 → Int64 → Bool) (a b : Address) : NativeM κ Address := do
  let x ← int op a
  let y ← int op b
  allocBool (f x y)

/-- Are two cells equal? -/
def equal (op : Intrinsic) (a b : Address) : NativeM κ Bool := do
  match ← load a, ← load b with
  | .int x, .int y => return x == y
  | .str x, .str y => return visible x == visible y
  | .con x, .con y => return x == y
  | .closure code arity applied args, _ =>
    throw (.typeMismatch op.name "comparable values" (Cell.closure code arity applied args).kind)
  | _, other => throw (.typeMismatch op.name "comparable values" other.kind)

/-- The text of a value as a value. A text is its own. -/
def showValue (address : Address) : NativeM κ Address := do
  match ← load address with
  | .str _ => return address
  | other => alloc (.str other.text)

/-- Prints a line. -/
def putLine (op : Intrinsic) (address : Address) : NativeM κ Address := do
  match ← load address with
  | .str text =>
    print (visible text ++ "\n")
    alloc (.con 0)
  | other => throw (.typeMismatch op.name "string" other.kind)

end Primitive

open Primitive in
/-- Calls an intrinsic. Arguments beyond those it takes are not looked at. -/
def callIntrinsic (op : Intrinsic) (args : List Address) : NativeM κ Address :=
  match op, args with
  | .negate, a :: _ => do
    let x ← int .negate a
    alloc (.int (0 - x.toUInt64).toInt64)
  | .showValue, a :: _ => showValue a
  | .putStrLn, a :: _ => putLine .putStrLn a
  | .plus, a :: b :: _ => arith .plus (· + ·) a b
  | .minus, a :: b :: _ => arith .minus (· - ·) a b
  | .mult, a :: b :: _ => arith .mult (· * ·) a b
  | .div, a :: b :: _ => divide .div quotient a b
  | .mod, a :: b :: _ => divide .mod remainder a b
  | .eq, a :: b :: _ => do allocBool (← equal .eq a b)
  | .neq, a :: b :: _ => do allocBool !(← equal .neq a b)
  | .lt, a :: b :: _ => compare .lt (fun x y => decide (x < y)) a b
  | .lte, a :: b :: _ => compare .lte (fun x y => decide (x ≤ y)) a b
  | .gt, a :: b :: _ => compare .gt (fun x y => decide (y < x)) a b
  | .gte, a :: b :: _ => compare .gte (fun x y => decide (y ≤ x)) a b
  | _, _ => throw .wildPointer

end Lamina.Native
