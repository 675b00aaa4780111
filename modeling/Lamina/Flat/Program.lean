import Lamina.Core.Graph
import Lamina.Flat.Name

/-!
# Flat programs

A program without nested functions. Every function stands on its own; its parameters are the
variables it captures, then its own. A body is a list of instructions, each of which sets one
variable, and branches are the only nesting. At the start of a run every top-level function has a
closure in a global slot.
-/

namespace Lamina.Flat

/-- The largest number of arguments that a call can pass. -/
def maxArity : Nat := 8

/-- The index of a function in its program. -/
abbrev FunctionId := Nat

/-- A place that holds a value. -/
inductive Var
  /-- A temporary; its number is unique in a program. -/
  | temp (n : Nat)
  /-- A parameter, known by its node in the core graph. -/
  | param (node : Core.NodeId) (name : String)
  /-- The result of a function. -/
  | result
  /-- The result of the program. -/
  | mainResult
deriving DecidableEq, Inhabited, Repr

/-- How a variable is written. -/
def Var.text : Var → String
  | temp n => "_t" ++ toString n
  | param node name => "p" ++ toString node ++ "_" ++ mangle name
  | result => "_result"
  | mainResult => "_main_result"

/-- What a closure calls once it has all its arguments. -/
inductive Callee
  | function (id : FunctionId)
  | intrinsic (op : Intrinsic)
deriving DecidableEq, Inhabited, Repr

/-- An instruction. -/
inductive Instr
  | int (dst : Var) (value : Int64)
  | str (dst : Var) (text : String)
  /-- A constructor without fields; the unit value has tag zero. -/
  | con (dst : Var) (tag : Nat) (name : String)
  | copy (dst src : Var)
  /-- Reads the closure in a global slot. -/
  | load (dst : Var) (slot : Nat)
  /-- Makes a closure without arguments. -/
  | closure (dst : Var) (callee : Callee) (arity : Nat)
  /-- Calls an intrinsic with all its arguments. -/
  | call (dst : Var) (op : Intrinsic) (args : List Var)
  /-- Applies a closure to one argument. -/
  | apply (dst func arg : Var)
  /-- Runs one of two blocks; its result becomes the value of `dst`. -/
  | branch (dst cond : Var) (onTrue : List Instr) (trueResult : Var) (onFalse : List Instr)
      (falseResult : Var)
deriving Inhabited, Repr

/-- Instructions whose value ends up in `result`. -/
structure Block where
  instrs : List Instr
  result : Var
deriving Inhabited, Repr

/-- The variable that an instruction sets. -/
def Instr.dst : Instr → Var
  | int dst _ => dst
  | str dst _ => dst
  | con dst _ _ => dst
  | copy dst _ => dst
  | load dst _ => dst
  | closure dst _ _ => dst
  | call dst _ _ => dst
  | apply dst _ _ => dst
  | branch dst _ _ _ _ _ => dst

mutual

/-- An instruction and those inside it, outermost first. -/
def Instr.walk (i : Instr) : List Instr :=
  match i with
  | .branch _ _ onTrue _ onFalse _ => i :: (walkInstrs onTrue ++ walkInstrs onFalse)
  | _ => [i]

/-- Instructions and those inside them, in order. -/
def walkInstrs : List Instr → List Instr
  | [] => []
  | i :: rest => i.walk ++ walkInstrs rest

end

/-- Where a function comes from. -/
inductive FunctionKind
  /-- A top-level definition. -/
  | named (name : String)
  /-- A lambda inside an expression, and the local name it was bound to. -/
  | lifted (index : Nat) (binding : Option String)
deriving DecidableEq, Inhabited, Repr

/-- A function. -/
structure Function where
  id : FunctionId
  kind : FunctionKind
  /-- The name of its implementation. -/
  symbol : String
  captures : List Var
  params : List Var
  body : Block
deriving Inhabited, Repr

namespace Function

/-- The number of parameters, captured ones included. -/
def arity (f : Function) : Nat := f.captures.length + f.params.length

/-- All parameters in calling order. -/
def allParams (f : Function) : List Var := f.captures ++ f.params

/-- How messages name a function. -/
def displayName (f : Function) : String :=
  match f.kind with
  | .named name => name
  | .lifted index (some binding) => binding ++ " (lambda " ++ toString index ++ ")"
  | .lifted index none => "lambda " ++ toString index

end Function

/-- The slot of a top-level function's closure. -/
structure GlobalSlot where
  name : String
  field : String
  function : FunctionId
  arity : Nat
deriving DecidableEq, Inhabited, Repr

/-- A flat program. Named functions come first, in source order, then the lifted ones in the
order in which they were found. -/
structure Program where
  moduleName : String
  functions : Array Function
  globals : Array GlobalSlot
  entryName : String
  entry : Block
deriving Inhabited, Repr

namespace Program

/-- The function with a given name. -/
def functionNamed? (p : Program) (name : String) : Option Function :=
  p.functions.toList.find? fun f => f.kind == .named name

/-- All instructions: those of the functions in order, then those of the entry. -/
def walk (p : Program) : List Instr :=
  p.functions.toList.flatMap (fun f => walkInstrs f.body.instrs) ++ walkInstrs p.entry.instrs

end Program

end Lamina.Flat
