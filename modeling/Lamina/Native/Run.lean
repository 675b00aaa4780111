import Lamina.Native.Primitive

/-!
# Running a native program

The meaning of the C text of a flat program: the global closures are allocated, the entry block is
evaluated, and its value is printed unless it is the unit value. Variables that a branch declares
end with it. Calls nest as deeply as the stack allows; how deep that is, is a parameter.
-/

namespace Lamina.Native

open Lamina.Flat (Var Callee Instr Program)

/-- The variables in scope, newest first. -/
abbrev Scope := List (Var × Address)

/-- Code of a compiled program. -/
abbrev CodeM := NativeM Callee

/-- The value of a variable. -/
def Scope.get (scope : Scope) (var : Var) : CodeM Address :=
  match scope.lookup var with
  | some address => return address
  | none => throw .wildPointer

/-- The closure in a global slot. -/
def loadGlobal (globals : List Address) (slot : Nat) : CodeM Address :=
  match globals[slot]? with
  | some address => return address
  | none => throw .wildPointer

mutual

/-- Runs an instruction and answers with the value it sets. -/
def exec (globals : List Address) (call : Callee → List Address → CodeM Address) :
    Instr → Scope → CodeM Address
  | .int _ n, _ => alloc (.int n)
  | .str _ text, _ => alloc (.str text)
  | .con _ tag _, _ => alloc (.con tag)
  | .copy _ src, scope => scope.get src
  | .load _ slot, _ => loadGlobal globals slot
  | .closure _ callee arity, _ => allocClosure callee arity
  | .call _ op args, scope => do callIntrinsic op (← args.mapM scope.get)
  | .apply _ func arg, scope => do apply call (← scope.get func) (← scope.get arg)
  | .branch _ cond onTrue trueResult onFalse falseResult, scope => do
    if ← truthy (← scope.get cond) then (← execAll globals call onTrue scope).get trueResult
    else (← execAll globals call onFalse scope).get falseResult

/-- Runs instructions in order, each in the scope of those before. -/
def execAll (globals : List Address) (call : Callee → List Address → CodeM Address) :
    List Instr → Scope → CodeM Scope
  | [], scope => return scope
  | i :: rest, scope => do
    let value ← exec globals call i scope
    execAll globals call rest ((i.dst, value) :: scope)

end

/-- Runs a block and answers with its result. -/
def execBlock (globals : List Address) (call : Callee → List Address → CodeM Address)
    (block : Flat.Block) (scope : Scope) : CodeM Address := do
  (← execAll globals call block.instrs scope).get block.result

/-- Calls code; `free` is how many more calls fit on the stack. -/
def call (p : Program) (globals : List Address) :
    (free : Nat) → Callee → List Address → CodeM Address
  | _, .intrinsic op, args => callIntrinsic op args
  | 0, .function _, _ => throw .stackExhausted
  | free + 1, .function id, args =>
    match p.functions[id]? with
    | some f => execBlock globals (call p globals free) f.body (f.allParams.zip args).reverse
    | none => throw .wildPointer

/-- Allocates the global closures. -/
def initGlobals : List Flat.GlobalSlot → CodeM (List Address)
  | [] => return []
  | slot :: rest => do
    let address ← allocClosure (.function slot.function) slot.arity
    return address :: (← initGlobals rest)

/-- The main function. -/
def mainProgram (stack : Nat) (p : Program) : CodeM Unit := do
  let globals ← initGlobals p.globals.toList
  let result ← execBlock globals (call p globals stack) p.entry []
  if ← isUnit result then return ()
  else
    printValue result
    print "\n"

/-- A stack that holds more calls than any program here needs. -/
def stackSize : Nat := 4294967296

/-- Runs the executable of a flat program. -/
def run (p : Program) : Exit := (mainProgram stackSize p).exit

end Lamina.Native
