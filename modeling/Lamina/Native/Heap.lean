import Lamina.Flat.Program

/-!
# The native heap

A native program keeps its values in cells that are allocated one after the other and never freed.
A closure cell has the code to call, the number of arguments that the code takes, how many have been
supplied, and an array with a place for each. Applying a closure copies its cell before an argument
is written into it, so cells that other values share stay as they are.

The type of codes is a parameter: compiled programs call their functions and the intrinsics.
-/

namespace Lamina.Native

/-- The place of a cell. -/
abbrev Address := Nat

/-- A value in memory. -/
inductive Cell (κ : Type)
  | int (n : Int64)
  | str (text : String)
  | closure (code : κ) (arity : Int) (applied : Nat) (args : Array (Option Address))
  | con (tag : Nat)
deriving Inhabited, Repr

/-- The word for a kind of cell in messages. -/
def Cell.kind {κ : Type} : Cell κ → String
  | int _ => "int"
  | str _ => "string"
  | closure .. => "closure"
  | con _ => "constructor"

/-- The part of a text that a native program sees: it ends at the first zero character. -/
def visible (text : String) : String :=
  String.ofList (text.toList.takeWhile (· ≠ '\x00'))

/-- How a cell is printed. -/
def Cell.text {κ : Type} : Cell κ → String
  | int n => toString n.toInt
  | str text => visible text
  | closure .. => "<closure>"
  | con tag => "<con " ++ toString tag ++ ">"

/-- Why a native program stops. -/
inductive Fatal
  | notAClosure (found : String)
  | unsupportedArity (arity : Int)
  | typeMismatch (operation expected found : String)
  | divisionByZero
  /-- A message of the program's own. -/
  | custom (text : String)
  /-- A pointer that leads to no cell was followed. -/
  | wildPointer
  /-- Calls nest more deeply than the stack allows. -/
  | stackExhausted
deriving DecidableEq, Inhabited, Repr

namespace Fatal

/-- What a native program says when it stops. -/
def message : Fatal → String
  | notAClosure found => "applying a non-closure value (" ++ found ++ ")"
  | unsupportedArity arity => "arity " ++ toString arity ++ " not supported"
  | typeMismatch operation expected found =>
    operation ++ " expects " ++ expected ++ ", found " ++ found
  | divisionByZero => "division by zero"
  | custom text => visible text
  | wildPointer => "wild pointer"
  | stackExhausted => "stack exhausted"

/-- What a native program writes to its error stream when it stops. -/
def report (e : Fatal) : String := "runtime error: " ++ e.message ++ "\n"

end Fatal

/-- The memory of a native program, and what it has printed. -/
structure World (κ : Type) where
  cells : Array (Cell κ)
  stdout : String
deriving Inhabited

/-- The memory at the start. -/
def World.start {κ : Type} : World κ := ⟨#[], ""⟩

/-- A native program changes its memory and may stop. What it printed before stays. -/
abbrev NativeM (κ : Type) := ExceptT Fatal (StateM (World κ))

variable {κ : Type}

/-- Allocates a cell. -/
def alloc (cell : Cell κ) : NativeM κ Address :=
  modifyGet fun w => (w.cells.size, { w with cells := w.cells.push cell })

/-- The cell at an address. -/
def load (address : Address) : NativeM κ (Cell κ) := do
  match (← get).cells[address]? with
  | some cell => return cell
  | none => throw .wildPointer

/-- Prints a text. -/
def print (text : String) : NativeM κ Unit :=
  modify fun w => { w with stdout := w.stdout ++ text }

/-- Allocates a closure without arguments. -/
def allocClosure (code : κ) (arity : Int) : NativeM κ Address :=
  alloc (.closure code arity 0 (Array.replicate arity.toNat none))

/-- Writes the next argument of a closure. -/
def pushArg (address arg : Address) : NativeM κ Unit :=
  modify fun w => { w with cells := w.cells.modify address fun cell =>
    match cell with
    | .closure code arity applied args =>
      .closure code arity (applied + 1) (args.setIfInBounds applied (some arg))
    | other => other }

/-- The arguments in the first places of an array. -/
def suppliedArgs : List (Option Address) → NativeM κ (List Address)
  | [] => return []
  | some arg :: rest => return arg :: (← suppliedArgs rest)
  | none :: _ => throw .wildPointer

/-- Applies a closure to one argument. If it needs more, the answer is a copy of it with this one;
else `call` runs its code. -/
def apply (call : κ → List Address → NativeM κ Address) (func arg : Address) :
    NativeM κ Address := do
  match ← load func with
  | .closure code arity applied args =>
    if (applied : Int) + 1 < arity then
      let next ← alloc (.closure code arity applied args)
      pushArg next arg
      return next
    else if arity < 1 ∨ (Flat.maxArity : Int) < arity then throw (.unsupportedArity arity)
    else
      let supplied ← suppliedArgs (args.toList.take applied)
      call code (supplied ++ [arg])
  | other => throw (.notAClosure other.kind)

/-- Is a condition met? Only integers are conditions. -/
def truthy (address : Address) : NativeM κ Bool := do
  match ← load address with
  | .int n => return n != 0
  | other => throw (.typeMismatch "if" "int" other.kind)

/-- Is this the unit value? -/
def isUnit (address : Address) : NativeM κ Bool := do
  match ← load address with
  | .con tag => return tag == 0
  | _ => return false

/-- Prints a value. -/
def printValue (address : Address) : NativeM κ Unit := do
  print (← load address).text

/-- How a native program ended. -/
structure Exit where
  code : Nat
  stdout : String
  stderr : String
deriving DecidableEq, Inhabited, Repr

/-- Runs a native program to its end. -/
def NativeM.exit {α : Type} (program : NativeM κ α) : Exit :=
  match program.run.run .start with
  | (.ok _, w) => ⟨0, w.stdout, ""⟩
  | (.error e, w) => ⟨1, w.stdout, e.report⟩

end Lamina.Native
