import Lamina.Flat.Conversion
import Lamina.Proofs.Except

/-!
# Inlined terms

Closure conversion is two things at once: it writes the code of every local value out where the
value is used, and it cuts the resulting expression into instructions. Here the two are taken
apart. A `Term` is an expression without sharing, the outcome of the first part (`expand`);
`Term.code` is the second. Only the second part knows whether intrinsics are called directly. Which
term a node has is also given as a relation, `Expands`, which needs no bound on the nesting.

`Conversion.node` does both parts in one walk; that it is the composition of the two is proved in
`Lamina.Proofs.Flat.Expansion`.
-/

namespace Lamina.Flat

open Lamina.Core (NodeId NodeKind Module)

variable {scope inlining : List NodeId} {p : Plan} {t : Term} {id : NodeId}

/-- What a node computes, written out in full. -/
inductive Term
  | int (value : Int64)
  | str (text : String)
  | con (name : String)
  /-- A parameter of the function at hand. -/
  | param (node : NodeId)
  | prim (op : Intrinsic)
  /-- The closure in a global slot. -/
  | global (slot : Nat)
  /-- The closure of a function, applied to captured parameters. -/
  | closure (function : FunctionId) (arity : Nat) (captures : List NodeId)
  /-- A use of a value by its name. -/
  | inlined (value : Term)
  | app (func arg : Term)
  | cond (test onTrue onFalse : Term)

namespace Term

/-- The parameters that a term mentions. -/
def params : Term → List NodeId
  | param node => [node]
  | closure _ _ captures => captures
  | inlined value => value.params
  | app func arg => func.params ++ arg.params
  | cond test onTrue onFalse => test.params ++ onTrue.params ++ onFalse.params
  | _ => []

end Term

/-! ## From nodes to terms -/

/-- Fails at a parameter that is not in scope. -/
def requireScoped (m : Module) (scope : List NodeId) : List NodeId → Except ConvertError Unit
  | [] => .ok ()
  | id :: rest =>
    if scope.contains id then requireScoped m scope rest
    else .error (.unboundPlaceholder (m.label id))

/-- The closure of a lambda. -/
def expandLambda (p : Plan) (scope : List NodeId) (id : NodeId) : Except ConvertError Term :=
  match p.function? id with
  | none => .error (.uncollectedLambda id)
  | some function =>
    (requireScoped p.module scope (p.captures.of id)).map fun _ =>
      .closure function (p.arity id) (p.captures.of id)

/-- A use of a node by name; `inline` expands a local value. -/
def expandReference (p : Plan) (scope inlining : List NodeId)
    (inline : NodeId → Except ConvertError Term) (target : NodeId) : Except ConvertError Term :=
  match p.module.kind target with
  | .placeholder => (requireScoped p.module scope [target]).map fun _ => .param target
  | .lambda .. =>
    match p.slot? target with
    | some slot => .ok (.global slot)
    | none => expandLambda p scope target
  | .intrinsic op => .ok (.prim op)
  | .noForm => .error (.unfilledNode (p.module.label target))
  | _ =>
    if inlining.contains target then .error (.cyclicValue (p.module.label target))
    else (inline target).map .inlined

/-- The term of a node. `inlining` lists the values that are being written out. -/
def expand (p : Plan) (scope : List NodeId) :
    (fuel : Nat) → (inlining : List NodeId) → NodeId → Except ConvertError Term
  | 0, _, id => .error (.cyclicValue (p.module.label id))
  | fuel + 1, inlining, id =>
    match p.module.kind id with
    | .noForm => .error (.unfilledNode (p.module.label id))
    | .literal (.int value) => .ok (.int value)
    | .literal (.str text) => .ok (.str text)
    | .constructor name => .ok (.con name)
    | .placeholder => (requireScoped p.module scope [id]).map fun _ => .param id
    | .intrinsic op => .ok (.prim op)
    | .lambda .. => expandLambda p scope id
    | .indirection target =>
      expandReference p scope inlining (expand p scope fuel (target :: inlining)) target
    | .application func arg => do
      let func ← expand p scope fuel inlining func
      let arg ← expand p scope fuel inlining arg
      return .app func arg
    | .conditional test onTrue onFalse => do
      let test ← expand p scope fuel inlining test
      let onTrue ← expand p scope fuel inlining onTrue
      let onFalse ← expand p scope fuel inlining onFalse
      return .cond test onTrue onFalse

/-! ## Terms and their nodes -/

mutual

/-- The term of a node, in a function with the parameters `scope`. -/
inductive Expands (p : Plan) (scope : List NodeId) : NodeId → Term → Prop
  | int {id value} (hkind : p.module.kind id = .literal (.int value)) :
      Expands p scope id (.int value)
  | str {id text} (hkind : p.module.kind id = .literal (.str text)) : Expands p scope id (.str text)
  | con {id name} (hkind : p.module.kind id = .constructor name) : Expands p scope id (.con name)
  | param {id : NodeId} (hkind : p.module.kind id = .placeholder) (hscope : id ∈ scope) :
      Expands p scope id (.param id)
  | prim {id op} (hkind : p.module.kind id = .intrinsic op) : Expands p scope id (.prim op)
  | closure {id params body function} (hkind : p.module.kind id = .lambda params body)
      (hfunction : p.function? id = some function) (hscope : p.captures.of id ⊆ scope) :
      Expands p scope id (.closure function (p.arity id) (p.captures.of id))
  | reference {id target t} (hkind : p.module.kind id = .indirection target)
      (htarget : Refers p scope target t) : Expands p scope id t
  | app {id func arg f a} (hkind : p.module.kind id = .application func arg)
      (hfunc : Expands p scope func f) (harg : Expands p scope arg a) :
      Expands p scope id (.app f a)
  | cond {id test onTrue onFalse t y n}
      (hkind : p.module.kind id = .conditional test onTrue onFalse) (htest : Expands p scope test t)
      (htrue : Expands p scope onTrue y) (hfalse : Expands p scope onFalse n) :
      Expands p scope id (.cond t y n)

/-- The term of a use by name. -/
inductive Refers (p : Plan) (scope : List NodeId) : NodeId → Term → Prop
  | param {target} (hkind : p.module.kind target = .placeholder) (hscope : target ∈ scope) :
      Refers p scope target (.param target)
  | global {target params body slot} (hkind : p.module.kind target = .lambda params body)
      (hslot : p.slot? target = some slot) : Refers p scope target (.global slot)
  | closure {target params body function} (hkind : p.module.kind target = .lambda params body)
      (hfunction : p.function? target = some function) (hscope : p.captures.of target ⊆ scope) :
      Refers p scope target (.closure function (p.arity target) (p.captures.of target))
  | prim {target op} (hkind : p.module.kind target = .intrinsic op) :
      Refers p scope target (.prim op)
  | inlined {target t} (htarget : Expands p scope target t) : Refers p scope target (.inlined t)

end

theorem subset_of_requireScoped {m ids} (h : requireScoped m scope ids = .ok ()) : ids ⊆ scope := by
  induction ids with
  | nil => exact List.nil_subset scope
  | cons id rest ih =>
    unfold requireScoped at h
    split at h
    · rename_i hid
      exact List.cons_subset.mpr ⟨List.contains_iff_mem.mp hid, ih h⟩
    · cases h

theorem expandLambda_ok (h : expandLambda p scope id = .ok t) :
    ∃ function, p.function? id = some function ∧ p.captures.of id ⊆ scope ∧
      t = .closure function (p.arity id) (p.captures.of id) := by
  unfold expandLambda at h
  split at h
  · cases h
  · rename_i function hfunction
    obtain ⟨_, hscope, rfl⟩ := ok_of_map h
    exact ⟨function, hfunction, subset_of_requireScoped hscope, rfl⟩

theorem expandReference_refers {target inline}
    (hinline : ∀ t, inline target = .ok t → Expands p scope target t)
    (h : expandReference p scope inlining inline target = .ok t) : Refers p scope target t := by
  -- a value that is not being written out already
  have hvalue : (if inlining.contains target then .error (.cyclicValue (p.module.label target))
      else (inline target).map Term.inlined) = .ok t → Refers p scope target t := by
    intro h
    split at h
    · cases h
    · obtain ⟨value, hi, rfl⟩ := ok_of_map h
      exact .inlined (hinline value hi)
  unfold expandReference at h
  cases hkind : p.module.kind target <;> rw [hkind] at h <;> simp only at h
  case placeholder =>
    obtain ⟨_, hscope, rfl⟩ := ok_of_map h
    exact .param hkind (subset_of_requireScoped hscope (List.mem_singleton_self _))
  case lambda =>
    split at h
    · rename_i slot hslot
      cases h
      exact .global hkind hslot
    · obtain ⟨function, hfunction, hscope, rfl⟩ := expandLambda_ok h
      exact .closure hkind hfunction hscope
  case intrinsic =>
    cases h
    exact .prim hkind
  case noForm => cases h
  all_goals exact hvalue h

/-- Expanding relates a node to its term. -/
theorem expand_expands {fuel : Nat} (h : expand p scope fuel inlining id = .ok t) :
    Expands p scope id t := by
  induction fuel generalizing inlining id t with
  | zero => cases h
  | succ fuel ih =>
    cases hkind : p.module.kind id <;> simp only [expand, hkind] at h
    case noForm => cases h
    case placeholder =>
      obtain ⟨_, hscope, rfl⟩ := ok_of_map h
      exact .param hkind (subset_of_requireScoped hscope (List.mem_singleton_self _))
    case constructor => cases h; exact .con hkind
    case intrinsic => cases h; exact .prim hkind
    case literal value =>
      cases value with
      | int value => cases h; exact .int hkind
      | str text => cases h; exact .str hkind
    case lambda =>
      obtain ⟨function, hfunction, hscope, rfl⟩ := expandLambda_ok h
      exact .closure hkind hfunction hscope
    case indirection target =>
      exact .reference hkind (expandReference_refers (fun t ht => ih ht) h)
    case application func arg =>
      obtain ⟨f, hf, h⟩ := ok_of_bind h
      obtain ⟨a, ha, h⟩ := ok_of_bind h
      cases h
      exact .app hkind (ih hf) (ih ha)
    case conditional test onTrue onFalse =>
      obtain ⟨t, ht, h⟩ := ok_of_bind h
      obtain ⟨y, hy, h⟩ := ok_of_bind h
      obtain ⟨n, hn, h⟩ := ok_of_bind h
      cases h
      exact .cond hkind (ih ht) (ih hy) (ih hn)

mutual

/-- A term mentions parameters in scope only. -/
theorem Expands.params_subset {p scope id t} :
    Expands p scope id t → t.params ⊆ scope
  | .int _ | .str _ | .con _ | .prim _ => List.nil_subset scope
  | .param _ hscope => List.cons_subset.mpr ⟨hscope, List.nil_subset scope⟩
  | .closure _ _ hscope => hscope
  | .reference _ htarget => htarget.params_subset
  | .app _ hfunc harg => List.append_subset.mpr ⟨hfunc.params_subset, harg.params_subset⟩
  | .cond _ htest htrue hfalse => List.append_subset.mpr
      ⟨List.append_subset.mpr ⟨htest.params_subset, htrue.params_subset⟩, hfalse.params_subset⟩

theorem Refers.params_subset {p scope target t} :
    Refers p scope target t → t.params ⊆ scope
  | .param _ hscope => List.cons_subset.mpr ⟨hscope, List.nil_subset scope⟩
  | .global _ _ | .prim _ => List.nil_subset scope
  | .closure _ _ hscope => hscope
  | .inlined htarget => htarget.params_subset

end

/-! ## From terms to code -/

/-- The counters with one more temporary in use. -/
def ConvertState.next (st : ConvertState) : ConvertState := { st with nextTemp := st.nextTemp + 1 }

/-- The code of a constructor. -/
def conCode (name : String) (dst : Var) (st : ConvertState) : List Instr × ConvertState :=
  if name = "True" then ([.int dst 1], st)
  else if name = "False" then ([.int dst 0], st)
  else if name = "()" then ([.con dst 0 name], st)
  else
    match st.constructors.idxOf? name with
    | some i => ([.con dst (i + 1) name], st)
    | none =>
      ([.con dst (st.constructors.length + 1) name],
        { st with constructors := st.constructors ++ [name] })

/-- The code that applies the closure in `func` to captured parameters. -/
def captureCode (m : Module) (dst : Var) :
    (func : Var) → List NodeId → ConvertState → List Instr × ConvertState
  | _, [], st => ([], st)
  | func, [id], st => ([.apply dst func (Conversion.paramVar m id)], st)
  | func, id :: rest, st =>
    let more := captureCode m dst (.temp st.nextTemp) rest st.next
    (.apply (.temp st.nextTemp) func (Conversion.paramVar m id) :: more.1, more.2)

/-- The code of a closure with its captures. -/
def closureCode (m : Module) (function : FunctionId) (arity : Nat) (dst : Var) :
    List NodeId → ConvertState → List Instr × ConvertState
  | [], st => ([.closure dst (.function function) arity], st)
  | captures, st =>
    let more := captureCode m dst (.temp st.nextTemp) captures st.next
    (.closure (.temp st.nextTemp) (.function function) arity :: more.1, more.2)

/-- The code that makes the value of an operand available, and the variable that then holds it.
Parameters are read where they are. -/
def operandCode (m : Module) (t : Term) (code : Var → ConvertState → List Instr × ConvertState)
    (st : ConvertState) : (List Instr × Var) × ConvertState :=
  match t with
  | .param id => (([], Conversion.paramVar m id), st)
  | _ =>
    let made := code (.temp st.nextTemp) st.next
    ((made.1, .temp st.nextTemp), made.2)

/-- The code of two operands in order, and then `last` on the variables that hold them. -/
def pairCode (first second : ConvertState → (List Instr × Var) × ConvertState)
    (last : Var → Var → Instr) (st : ConvertState) : List Instr × ConvertState :=
  let one := first st
  let two := second one.2
  (one.1.1 ++ two.1.1 ++ [last one.1.2 two.1.2], two.2)

namespace Term

/-- The instructions that compute a term into `dst`. With `direct`, an intrinsic with all its
arguments is called; else its closure is applied to them one by one. -/
def code (direct : Bool) (m : Module) : Term → Var → ConvertState → List Instr × ConvertState
  | int value, dst, st => ([.int dst value], st)
  | str text, dst, st => ([.str dst text], st)
  | con name, dst, st => conCode name dst st
  | param node, dst, st => ([.copy dst (Conversion.paramVar m node)], st)
  | prim op, dst, st => ([.closure dst (.intrinsic op) op.arity], st)
  | global slot, dst, st => ([.load dst slot], st)
  | closure function arity captures, dst, st => closureCode m function arity dst captures st
  | inlined value, dst, st => value.code direct m dst st
  | app func arg, dst, st =>
    let generic :=
      pairCode (operandCode m func (func.code direct m)) (operandCode m arg (arg.code direct m))
        (.apply dst) st
    match func with
    | prim op =>
      if direct && op.arity == 1 then
        let one := operandCode m arg (arg.code direct m) st
        (one.1.1 ++ [.call dst op [one.1.2]], one.2)
      else generic
    | app (prim op) first =>
      if direct && op.arity == 2 then
        pairCode (operandCode m first (first.code direct m))
          (operandCode m arg (arg.code direct m)) (fun x y => .call dst op [x, y]) st
      else generic
    | _ => generic
  | cond test onTrue onFalse, dst, st =>
    let test := operandCode m test (test.code direct m) st
    let yes := onTrue.code direct m (.temp test.2.nextTemp) test.2.next
    let no := onFalse.code direct m (.temp yes.2.nextTemp) yes.2.next
    (test.1.1 ++ [.branch dst test.1.2 yes.1 (.temp test.2.nextTemp) no.1 (.temp yes.2.nextTemp)],
      no.2)

end Term

end Lamina.Flat
