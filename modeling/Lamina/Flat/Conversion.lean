import Lamina.Flat.Capture
import Lamina.Flat.Error
import Lamina.Flat.Program

/-!
# Closure conversion

A core graph becomes a flat program. A reference to a lambda builds its closure and applies it to
what the lambda captures; a reference to a local value or to a definition that is no function is
replaced by the code of that value. A value whose code would contain itself is an error.
-/

namespace Lamina.Flat

open Lamina.Core (NodeId NodeKind Module)

/-- What is counted while code is made: the temporaries, and the constructors in the order in which
they were met. -/
structure ConvertState where
  nextTemp : Nat
  constructors : List String
deriving Inhabited, Repr

/-- Making code counts temporaries and constructors and may fail. -/
abbrev ConvertM := StateT ConvertState (Except ConvertError)

namespace Conversion

/-- A temporary that is not in use. -/
def fresh : ConvertM Var :=
  modifyGet fun st => (.temp st.nextTemp, { st with nextTemp := st.nextTemp + 1 })

/-- The tag of a constructor: its place, counted from one, among those met so far. -/
def tagOf (name : String) : ConvertM Nat :=
  modifyGet fun st =>
    match st.constructors.idxOf? name with
    | some i => (i + 1, st)
    | none =>
      (st.constructors.length + 1, { st with constructors := st.constructors ++ [name] })

/-- The variable of a parameter. -/
def paramVar (m : Module) (id : NodeId) : Var := .param id (m.label id)

/-- The variable of a parameter of the function at hand. -/
def scopedVar (m : Module) (scope : List NodeId) (id : NodeId) : ConvertM Var :=
  if scope.contains id then return paramVar m id
  else throw (.unboundPlaceholder (m.label id))

/-- The intrinsic that an application calls, and its arguments, if there are as many as it
takes. -/
def saturated? (m : Module) : (fuel : Nat) → NodeId → List NodeId → Option (Intrinsic × List NodeId)
  | 0, _, _ => none
  | fuel + 1, id, args =>
    match m.kind id with
    | .application func arg => saturated? m fuel func (arg :: args)
    | .intrinsic op => if args.length = op.arity then some (op, args) else none
    | .indirection target =>
      match m.kind target with
      | .intrinsic op => if args.length = op.arity then some (op, args) else none
      | _ => none
    | _ => none

/-- Truth values are integers, and the unit value has tag zero. -/
def constructor (name : String) (dst : Var) : ConvertM (List Instr) :=
  if name = "True" then return [.int dst 1]
  else if name = "False" then return [.int dst 0]
  else if name = "()" then return [.con dst 0 name]
  else return [.con dst (← tagOf name) name]

/-- Applies the closure in `func` to captured parameters, the last result going to `dst`. -/
def applyCaptures (m : Module) (scope : List NodeId) (dst : Var) :
    (func : Var) → List NodeId → ConvertM (List Instr)
  | _, [] => return []
  | func, [id] => do
    return [.apply dst func (← scopedVar m scope id)]
  | func, id :: rest => do
    let arg ← scopedVar m scope id
    let next ← fresh
    return .apply next func arg :: (← applyCaptures m scope dst next rest)

/-- The closure of a lambda. -/
def lambda (p : Plan) (scope : List NodeId) (id : NodeId) (dst : Var) : ConvertM (List Instr) := do
  match p.function? id with
  | none => throw (.uncollectedLambda id)
  | some function =>
    match p.captures.of id with
    | [] => return [.closure dst (.function function) (p.arity id)]
    | captures =>
      let func ← fresh
      return .closure func (.function function) (p.arity id) ::
        (← applyCaptures p.module scope dst func captures)

/-- A variable that holds the value of a node. A parameter is its own variable; `code` makes the
code of any other node. -/
def operand (p : Plan) (scope : List NodeId) (code : NodeId → Var → ConvertM (List Instr))
    (id : NodeId) : ConvertM (List Instr × Var) := do
  let param? :=
    match p.module.kind id with
    | .placeholder => some id
    | .indirection target => if p.module.kind target = .placeholder then some target else none
    | _ => none
  match param? with
  | some id => return ([], ← scopedVar p.module scope id)
  | none =>
    let dst ← fresh
    return (← code id dst, dst)

/-- Variables that hold the values of nodes, in order. -/
def operands (p : Plan) (scope : List NodeId) (code : NodeId → Var → ConvertM (List Instr)) :
    List NodeId → ConvertM (List Instr × List Var)
  | [] => return ([], [])
  | id :: rest => do
    let (instrs, var) ← operand p scope code id
    let (more, vars) ← operands p scope code rest
    return (instrs ++ more, var :: vars)

/-- A block that computes a node. -/
def block (code : NodeId → Var → ConvertM (List Instr)) (id : NodeId) : ConvertM Block := do
  let dst ← fresh
  return ⟨← code id dst, dst⟩

/-- The code of a use of a node by name. `inlining` lists the values whose code is being made, and
`inline` makes the code of one more. -/
def reference (p : Plan) (scope inlining : List NodeId)
    (inline : NodeId → Var → ConvertM (List Instr)) (target : NodeId) (dst : Var) :
    ConvertM (List Instr) := do
  match p.module.kind target with
  | .placeholder => return [.copy dst (← scopedVar p.module scope target)]
  | .lambda .. =>
    match p.slot? target with
    | some slot => return [.load dst slot]
    | none => lambda p scope target dst
  | .intrinsic op => return [.closure dst (.intrinsic op) op.arity]
  | .noForm => throw (.unfilledNode (p.module.label target))
  | _ =>
    if inlining.contains target then throw (.cyclicValue (p.module.label target))
    else inline target dst

/-- The code that computes a node into `dst`. A value is inlined into its own code nowhere, so the
nesting has a bound. -/
def node (p : Plan) (scope : List NodeId) :
    (fuel : Nat) → (inlining : List NodeId) → NodeId → Var → ConvertM (List Instr)
  | 0, _, id, _ => throw (.cyclicValue (p.module.label id))
  | fuel + 1, inlining, id, dst => do
    let code := node p scope fuel inlining
    match p.module.kind id with
    | .noForm => throw (.unfilledNode (p.module.label id))
    | .literal (.int value) => return [.int dst value]
    | .literal (.str text) => return [.str dst text]
    | .constructor name => constructor name dst
    | .placeholder => return [.copy dst (← scopedVar p.module scope id)]
    | .intrinsic op => return [.closure dst (.intrinsic op) op.arity]
    | .lambda .. => lambda p scope id dst
    | .indirection target =>
      reference p scope inlining (node p scope fuel (target :: inlining)) target dst
    | .application func arg =>
      match if p.direct then saturated? p.module (p.module.graph.size + 1) id [] else none with
      | some (op, args) =>
        let (instrs, vars) ← operands p scope code args
        return instrs ++ [.call dst op vars]
      | none =>
        let (funcCode, func) ← operand p scope code func
        let (argCode, arg) ← operand p scope code arg
        return funcCode ++ argCode ++ [.apply dst func arg]
    | .conditional cond onTrue onFalse =>
      let (condCode, cond) ← operand p scope code cond
      let onTrue ← block code onTrue
      let onFalse ← block code onFalse
      return condCode ++
        [.branch dst cond onTrue.instrs onTrue.result onFalse.instrs onFalse.result]

/-- The function of a lambda. -/
def function (p : Plan) (id : NodeId) (kind : FunctionKind) (symbol : String) :
    ConvertM Function := do
  match p.module.kind id with
  | .lambda _ body =>
    let captures := p.captures.of id
    let params := p.module.params id
    let instrs ← node p (captures ++ params) (walkBound p.module) [] body .result
    return {
      id := (p.function? id).getD 0
      kind
      symbol
      captures := captures.map (paramVar p.module)
      params := params.map (paramVar p.module)
      body := ⟨instrs, .result⟩ }
  | _ => throw (.uncollectedLambda id)

/-- The functions of the top-level definitions. -/
def namedFunctions (p : Plan) : List (NodeId × String) → ConvertM (List Function)
  | [] => return []
  | (id, name) :: rest => do
    let f ← function p id (.named name) ("lz_fn_" ++ mangle name)
    return f :: (← namedFunctions p rest)

/-- The functions of the lifted lambdas, the first of which has the index given. -/
def liftedFunctions (p : Plan) : (index : Nat) → List NodeId → ConvertM (List Function)
  | _, [] => return []
  | index, id :: rest => do
    let f ← function p id (.lifted index (p.module.graph.name id)) ("lz_anon_" ++ toString index)
    return f :: (← liftedFunctions p (index + 1) rest)

/-- The global slot of a top-level function. -/
def globalSlot (p : Plan) (id : NodeId) (name : String) : GlobalSlot where
  name
  field := "g_" ++ mangle name
  function := (p.function? id).getD 0
  arity := (p.module.params id).length

/-- The whole program that evaluates the node `entry`. -/
def program (p : Plan) (entry : NodeId) : ConvertM Program := do
  let named ← namedFunctions p p.globals
  let lifted ← liftedFunctions p 0 p.lifted
  let instrs ←
    reference p [] [] (node p [] (walkBound p.module) [entry]) entry .mainResult
  return {
    moduleName := p.module.name
    functions := (named ++ lifted).toArray
    globals := (p.globals.map fun (id, name) => globalSlot p id name).toArray
    entryName := p.module.entry
    entry := ⟨instrs, .mainResult⟩ }

end Conversion

/-- The functions that take more arguments than a call can pass. -/
def arityEvents (p : Program) : List Event :=
  (p.functions.toList.filter fun f => maxArity < f.arity).map fun f =>
    .arityTooLarge f.displayName f.arity maxArity

/-- The flat program of a core graph, and what was reported on the way. -/
def convert (direct : Bool) (m : Module) : Except ConvertError Program × List Event :=
  match m.definition? m.entry with
  | none => (.error (.missingEntry m.entry), [])
  | some entry =>
    let (plan, events) := planOf m direct
    match (Conversion.program plan entry).run ⟨0, []⟩ with
    | .error e => (.error e, events)
    | .ok (program, st) =>
      (.ok program, events ++ arityEvents program ++
        [.converted plan.globals.length plan.lifted.length st.nextTemp])

end Lamina.Flat
