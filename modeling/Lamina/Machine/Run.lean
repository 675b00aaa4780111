import Lamina.Event
import Lamina.Machine.Primitive

/-!
# Running a flat program

The entry block is run with an empty frame; a call runs the body of its function with a frame that
holds the parameters. Calls may nest up to a limit. A run that fails has an error and no output.
-/

namespace Lamina.Machine

open Lamina.Flat (Var Callee Instr Function FunctionId Program)

/-- The variables of a call, newest first. -/
abbrev Frame := List (Var × Value)

/-- What a run builds up: the text it wrote, the number of calls, and how deep they nested. -/
structure State where
  output : String
  calls : Nat
  deepest : Nat
deriving Inhabited, Repr

/-- The state at the start. -/
def State.start : State := ⟨"", 0, 0⟩

/-- A run changes the state and may fail. -/
abbrev RunM := ExceptT RunError (StateM State)

/-- The value of a variable. -/
def Frame.get (frame : Frame) (var : Var) : RunM Value :=
  match frame.lookup var with
  | some v => return v
  | none => throw (.undefinedVariable var.text)

/-- Calls an intrinsic and keeps what it writes. -/
def runIntrinsic (op : Intrinsic) (args : List Value) : RunM Value :=
  match callIntrinsic op args with
  | .error e => throw e
  | .ok (v, text) => do
    modify fun st => { st with output := st.output ++ text }
    return v

/-- Is a condition met? Only integers are conditions. -/
def condition (v : Value) : RunM Bool :=
  match v with
  | .int n => return n != 0
  | other => throw (.typeMismatch "if" "int" other.kind)

mutual

/-- Runs an instruction; `invoke` carries out calls. -/
def exec (p : Program) (invoke : Callee → List Value → RunM Value) :
    Instr → Frame → RunM Frame
  | .int dst n, frame => return (dst, .int n) :: frame
  | .str dst text, frame => return (dst, .str text) :: frame
  | .con dst tag _, frame => return (dst, .con tag []) :: frame
  | .copy dst src, frame => return (dst, ← frame.get src) :: frame
  | .load dst slot, frame =>
    match p.globals[slot]? with
    | some global => return (dst, .closure (.function global.function) global.arity []) :: frame
    | none => throw (.unknownGlobal slot)
  | .closure dst callee arity, frame => return (dst, .closure callee arity []) :: frame
  | .call dst op args, frame => do
    let args ← args.mapM frame.get
    return (dst, ← runIntrinsic op args) :: frame
  | .apply dst func arg, frame => do
    let func ← frame.get func
    let arg ← frame.get arg
    return (dst, ← apply invoke func arg) :: frame
  | .branch dst cond onTrue trueResult onFalse falseResult, frame => do
    if ← condition (← frame.get cond) then
      let frame ← execAll p invoke onTrue frame
      return (dst, ← frame.get trueResult) :: frame
    else
      let frame ← execAll p invoke onFalse frame
      return (dst, ← frame.get falseResult) :: frame

/-- Runs instructions in order. -/
def execAll (p : Program) (invoke : Callee → List Value → RunM Value) :
    List Instr → Frame → RunM Frame
  | [], frame => return frame
  | i :: rest, frame => do execAll p invoke rest (← exec p invoke i frame)

end

/-- Runs a block and answers with its result. -/
def execBlock (p : Program) (invoke : Callee → List Value → RunM Value) (block : Flat.Block)
    (frame : Frame) : RunM Value := do
  (← execAll p invoke block.instrs frame).get block.result

/-- The function to be called, if it takes that many arguments. -/
def calledFunction (p : Program) (id : FunctionId) (args : List Value) : RunM Function :=
  match p.functions[id]? with
  | none => throw (.unknownFunction id)
  | some f =>
    if args.length = f.arity then return f
    else throw (.arityMismatch f.arity args.length)

/-- The frame of a call. -/
def callFrame (f : Function) (args : List Value) : Frame :=
  (f.allParams.zip args).reverse

/-- Carries out a call. `free` is how many more calls may nest, out of `limit`. -/
def invoke (p : Program) (limit : Nat) : (free : Nat) → Callee → List Value → RunM Value
  | _, .intrinsic op, args => runIntrinsic op args
  | 0, .function id, args => do
    let _ ← calledFunction p id args
    throw (.stackOverflow limit)
  | free + 1, .function id, args => do
    let f ← calledFunction p id args
    modify fun st =>
      { st with calls := st.calls + 1, deepest := max st.deepest (limit - free) }
    execBlock p (invoke p limit free) f.body (callFrame f args)

/-- The result of a run. -/
structure Execution where
  /-- What the program wrote. -/
  output : String
  result : Value
deriving Inhabited, Repr

/-- What the user sees: the output, then the result on a line of its own unless it is the unit
value. -/
def Execution.transcript (e : Execution) : String :=
  if e.result.isUnit then e.output else e.output ++ e.result.text ++ "\n"

/-- The limit on nested calls unless another is given. -/
def defaultLimit : Nat := 1000

/-- Runs a program, and reports on the run if it ends. -/
def run (limit : Nat) (p : Program) : Except RunError Execution × List Event :=
  match (execBlock p (invoke p limit limit) p.entry []).run.run .start with
  | (.error e, _) => (.error e, [])
  | (.ok v, st) => (.ok ⟨st.output, v⟩, [.finished st.calls st.deepest])

end Lamina.Machine
