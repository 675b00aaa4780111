import Lamina.Proofs.Flat.Execution

/-!
# Programs in outline

The outline of a program has a term where the program has a block of instructions. It can be run as
it is, and the program that is assembled from it, with or without direct calls of intrinsics, runs
in the same way (`run_assemble`). Conversion assembles the outline of its plan, and fails where the
plan has none (`program_eq`).
-/

namespace Lamina.Flat

open Lamina.Core (NodeId NodeKind Module)
open Lamina.Machine (Value RunM RunError Frame Execution Alike execAll exec execBlock apply invoke
  runIntrinsic calledFunction callFrame run)

variable {i : Nat} {r : Routine} {rs : List Routine} {o : Outline}

/-- A function before its body is cut into instructions. -/
structure Routine where
  id : FunctionId
  kind : FunctionKind
  symbol : String
  captures : List NodeId
  params : List NodeId
  body : Term

/-- The parameters in calling order. -/
def Routine.scope (r : Routine) : List NodeId := r.captures ++ r.params

/-- A program before it is cut into instructions. -/
structure Outline where
  routines : List Routine
  globals : Array GlobalSlot
  main : Term

/-! ## The outline of a plan -/

/-- The node of each function of a plan, where it comes from and the name of its implementation. -/
def Plan.parts (p : Plan) : List (NodeId × FunctionKind × String) :=
  (p.globals.map fun (id, name) => (id, .named name, "lz_fn_" ++ mangle name)) ++
    p.lifted.zipIdx.map fun (id, index) =>
      (id, .lifted index (p.module.graph.name id), "lz_anon_" ++ toString index)

/-- The routine of a lambda. -/
def Plan.routine (p : Plan) (part : NodeId × FunctionKind × String) :
    Except ConvertError Routine :=
  match p.module.kind part.1 with
  | .lambda _ body =>
    (expand p (p.captures.of part.1 ++ p.module.params part.1) (walkBound p.module) [] body).map
      fun body => {
        id := (p.function? part.1).getD 0
        kind := part.2.1
        symbol := part.2.2
        captures := p.captures.of part.1
        params := p.module.params part.1
        body }
  | _ => .error (.uncollectedLambda part.1)

/-- The term that is run. -/
def Plan.main (p : Plan) (entry : NodeId) : Except ConvertError Term :=
  expandReference p [] [] (expand p [] (walkBound p.module) [entry]) entry

/-- The outline of the program that evaluates the node `entry`. -/
def Plan.outline (p : Plan) (entry : NodeId) : Except ConvertError Outline := do
  let routines ← p.parts.mapM p.routine
  let main ← p.main entry
  return ⟨routines, (p.globals.map fun (id, name) => Conversion.globalSlot p id name).toArray, main⟩

/-! ## Assembling -/

/-- The function of a routine whose body has been cut. -/
def Routine.function (m : Module) (r : Routine) (instrs : List Instr) : Function where
  id := r.id
  kind := r.kind
  symbol := r.symbol
  captures := r.captures.map (Conversion.paramVar m)
  params := r.params.map (Conversion.paramVar m)
  body := ⟨instrs, .result⟩

/-- The functions of routines in order. -/
def assembleAll (direct : Bool) (m : Module) :
    List Routine → ConvertState → List Function × ConvertState
  | [], st => ([], st)
  | r :: rest, st =>
    let code := r.body.code direct m .result st
    let more := assembleAll direct m rest code.2
    (r.function m code.1 :: more.1, more.2)

/-- The program of an outline. -/
def Outline.assemble (direct : Bool) (m : Module) (o : Outline) (st : ConvertState) :
    Program × ConvertState :=
  let functions := assembleAll direct m o.routines st
  let code := o.main.code direct m .mainResult functions.2
  ({ moduleName := m.name
     functions := functions.1.toArray
     globals := o.globals
     entryName := m.entry
     entry := ⟨code.1, .mainResult⟩ }, code.2)

namespace Conversion

variable {p : Plan}

theorem function_eq (shaped : p.module.Shaped) (id : NodeId) (kind : FunctionKind) (symbol : String)
    (st : ConvertState) :
    function p id kind symbol st = (p.routine (id, kind, symbol)).map fun r =>
      let code := r.body.code p.direct p.module .result st
      (r.function p.module code.1, code.2) := by
  unfold function Plan.routine
  cases hkind : p.module.kind id
  case lambda scope body =>
    simp only
    rw [bind_apply, node_eq shaped _ (Inlinable.nil _) (room_le_walkBound _ _)
      (room_le_walkBound _ _)]
    cases expand p (p.captures.of id ++ p.module.params id) (walkBound p.module) [] body <;> rfl
  all_goals rfl

/-- One more function in front of others that are known to be assembled from routines. -/
theorem function_cons_eq (shaped : p.module.Shaped) (part : NodeId × FunctionKind × String)
    {parts more} (hmore : ∀ st, more st = (parts.mapM p.routine).map fun rs =>
      assembleAll p.direct p.module rs st) (st : ConvertState) :
    (do
      let f ← function p part.1 part.2.1 part.2.2
      return f :: (← more) : ConvertM (List Function)) st =
      ((part :: parts).mapM p.routine).map fun rs => assembleAll p.direct p.module rs st := by
  rw [bind_apply, function_eq shaped, List.mapM_cons]
  cases p.routine part with
  | error e => rfl
  | ok r =>
    show (more >>= fun fs => pure (r.function p.module _ :: fs)) _ = _
    rw [bind_apply, hmore]
    show _ = ((parts.mapM p.routine).bind fun rs => Except.ok (r :: rs)).map _
    cases parts.mapM p.routine <;> rfl

theorem namedFunctions_eq (shaped : p.module.Shaped) (globals : List (NodeId × String))
    (st : ConvertState) :
    namedFunctions p globals st =
      ((globals.map fun (id, name) =>
        ((id, .named name, "lz_fn_" ++ mangle name) : NodeId × FunctionKind × String)).mapM
          p.routine).map fun rs => assembleAll p.direct p.module rs st := by
  induction globals generalizing st with
  | nil => rfl
  | cons global rest ih =>
    exact function_cons_eq shaped (global.1, .named global.2, "lz_fn_" ++ mangle global.2) ih st

theorem liftedFunctions_eq (shaped : p.module.Shaped) (index : Nat) (lifted : List NodeId)
    (st : ConvertState) :
    liftedFunctions p index lifted st =
      (((lifted.zipIdx index).map fun (id, index) =>
        ((id, .lifted index (p.module.graph.name id), "lz_anon_" ++ toString index) :
          NodeId × FunctionKind × String)).mapM p.routine).map fun rs =>
            assembleAll p.direct p.module rs st := by
  induction lifted generalizing index st with
  | nil => rfl
  | cons id rest ih =>
    exact function_cons_eq shaped
      (id, .lifted index (p.module.graph.name id), "lz_anon_" ++ toString index)
      (ih (index + 1)) st

theorem assembleAll_append (direct : Bool) (m : Module) (first second : List Routine)
    (st : ConvertState) :
    assembleAll direct m (first ++ second) st =
      ((assembleAll direct m first st).1 ++
        (assembleAll direct m second (assembleAll direct m first st).2).1,
        (assembleAll direct m second (assembleAll direct m first st).2).2) := by
  induction first generalizing st with
  | nil => rfl
  | cons r rest ih => simp only [List.cons_append, assembleAll, ih]

theorem main_eq (shaped : p.module.Shaped) (entry : NodeId) (st : ConvertState) :
    reference p [] [] (node p [] (walkBound p.module) [entry]) entry .mainResult st =
      (p.main entry).map fun t => t.code p.direct p.module .mainResult st := by
  refine reference_eq ?_ .mainResult st
  intro _ dst st
  by_cases hentry : entry < p.module.graph.size
  · have hinl : Inlinable p.module [entry] := (Inlinable.nil _).cons hentry (List.not_mem_nil)
    exact node_eq shaped [] hinl (room_inline_le_walkBound hinl) (room_inline_le_walkBound hinl)
      dst st
  · -- an entry outside the table has no form, and both walks say so at once
    have hkind := Core.Module.kind_of_size_le (Nat.le_of_not_lt hentry)
    obtain ⟨fuel, hfuel⟩ : ∃ fuel, walkBound p.module = fuel + 1 :=
      ⟨_, (Nat.succ_pred_eq_of_pos (Nat.mul_pos (Nat.succ_pos _) (Nat.succ_pos _))).symm⟩
    rw [hfuel]
    simp only [node, expand, hkind]
    rfl

/-- Conversion assembles the outline of its plan. -/
theorem program_eq (shaped : p.module.Shaped) (entry : NodeId) (st : ConvertState) :
    program p entry st = (p.outline entry).map fun o => o.assemble p.direct p.module st := by
  unfold program Plan.outline Plan.parts
  rw [bind_apply, namedFunctions_eq shaped, List.mapM_append]
  generalize List.mapM p.routine (p.globals.map _) = named
  have hlifted := liftedFunctions_eq shaped 0 p.lifted
  generalize List.mapM p.routine (p.lifted.zipIdx.map _) = lifted at hlifted ⊢
  -- functions are made first: where several things fail, the first of them is reported
  cases named with
  | error e => rfl
  | ok named =>
    show (liftedFunctions p 0 p.lifted >>= _) _ = _
    rw [bind_apply, hlifted]
    cases lifted with
    | error e => rfl
    | ok lifted =>
      show (reference p [] [] (node p [] (walkBound p.module) [entry]) entry .mainResult >>= _)
        _ = _
      rw [bind_apply, main_eq shaped]
      show _ = Except.map _ ((p.main entry).bind fun main =>
        Except.ok (⟨named ++ lifted, _, main⟩ : Outline))
      cases p.main entry with
      | error e => rfl
      | ok main =>
        simp only [Except.map, Except.bind, Outline.assemble, assembleAll_append]
        rfl

end Conversion

/-! ## Running an outline -/

namespace Outline

/-- The parameters of a call and their values; of two of one name the last one counts. -/
def bound (scope : List NodeId) (args : List Value) (id : NodeId) : Value :=
  ((scope.zip args).reverse.lookup id).getD default

/-- Own parameters are bound last: they hide captured ones. -/
theorem bound_append {captures params captured args} (hcaptured : captured.length = captures.length)
    (hargs : args.length = params.length) (x : NodeId) :
    bound (captures ++ params) (captured ++ args) x =
      if x ∈ params then bound params args x else bound captures captured x := by
  have hparams : x ∈ ((params.zip args).reverse).map Prod.fst ↔ x ∈ params := by
    rw [List.map_reverse, List.mem_reverse, List.map_fst_zip (Nat.le_of_eq hargs.symm)]
  unfold bound
  rw [List.zip_append hcaptured.symm, List.reverse_append, List.lookup_append]
  split
  · rename_i hx
    cases hlookup : (params.zip args).reverse.lookup x with
    | none => exact absurd (hparams.mpr hx) (lookup_eq_none_iff_not_mem.mp hlookup)
    | some v => rfl
  · rename_i hx
    rw [lookup_eq_none_iff_not_mem.mpr (mt hparams.mp hx), Option.none_or]

/-- The routine to be called, if it takes that many arguments. -/
def called (o : Outline) (id : FunctionId) (args : List Value) : RunM Routine :=
  match o.routines[id]? with
  | none => throw (.unknownFunction id)
  | some r =>
    if args.length = r.scope.length then return r
    else throw (.arityMismatch r.scope.length args.length)

/-- Carries out a call. `free` is how many more calls may nest, out of `limit`. -/
def call (number : String → Nat) (o : Outline) (limit : Nat) :
    (free : Nat) → Callee → List Value → RunM Value
  | _, .intrinsic op, args => runIntrinsic op args
  | 0, .function id, args => do
    let _ ← o.called id args
    throw (.stackOverflow limit)
  | free + 1, .function id, args => do
    let r ← o.called id args
    modify fun st =>
      { st with calls := st.calls + 1, deepest := max st.deepest (limit - free) }
    r.body.eval number o.globals (call number o limit free) (bound r.scope args)

theorem call_intrinsic (number : String → Nat) (o : Outline) (limit free : Nat) (op : Intrinsic)
    (args : List Value) : o.call number limit free (.intrinsic op) args = runIntrinsic op args := by
  cases free <;> rfl

/-- The value of the term that is run. -/
def eval (number : String → Nat) (o : Outline) (limit : Nat) : RunM Value :=
  o.main.eval number o.globals (o.call number limit limit) (bound [] [])

/-- The constructors of a program in the order in which they are met. -/
def table (o : Outline) : List String :=
  o.main.table (o.routines.foldl (fun names r => r.body.table names) [])

/-- Terms mention parameters of their own routine only. -/
structure Scoped (o : Outline) : Prop where
  routine : ∀ r ∈ o.routines, r.body.params ⊆ r.scope
  main : o.main.params ⊆ []

end Outline

/-! ## An assembled program runs as its outline -/

theorem prefix_foldl_table (rs : List Routine) (names : List String) :
    names <+: rs.foldl (fun names r => r.body.table names) names := by
  induction rs generalizing names with
  | nil => exact List.prefix_rfl
  | cons r rest ih => exact (r.body.prefix_table names).trans (ih _)

theorem assembleAll_constructors (direct : Bool) (m : Module) (rs : List Routine)
    (st : ConvertState) :
    (assembleAll direct m rs st).2.constructors =
      rs.foldl (fun names r => r.body.table names) st.constructors := by
  induction rs generalizing st with
  | nil => rfl
  | cons r rest ih => simp only [assembleAll, ih, code_constructors, List.foldl_cons]

theorem assembleAll_getElem_none (direct : Bool) (m : Module) (h : rs[i]? = none)
    (st : ConvertState) : (assembleAll direct m rs st).1[i]? = none := by
  induction rs generalizing i st with
  | nil => rfl
  | cons r rest ih =>
    cases i with
    | zero => cases h
    | succ i => exact ih h _

/-- Each function has the code of its routine, and the constructors met up to its end are among
those of the whole. -/
theorem assembleAll_getElem_some (direct : Bool) (m : Module) (h : rs[i]? = some r)
    (st : ConvertState) :
    ∃ st', (assembleAll direct m rs st).1[i]? =
        some (r.function m (r.body.code direct m .result st').1) ∧
      r.body.table st'.constructors <+:
        rs.foldl (fun names r => r.body.table names) st.constructors := by
  induction rs generalizing i st with
  | nil => cases h
  | cons first rest ih =>
    cases i with
    | zero =>
      cases h
      exact ⟨st, rfl, prefix_foldl_table rest _⟩
    | succ i =>
      obtain ⟨st', hget, hstart⟩ := ih h (first.body.code direct m .result st).2
      rw [code_constructors] at hstart
      exact ⟨st', hget, hstart⟩

/-- Each routine is a function of the assembled program. -/
theorem function_of_routine (direct : Bool) (m : Module) (hr : r ∈ o.routines) :
    ∃ f ∈ (o.assemble direct m ⟨0, []⟩).1.functions, f.arity = r.scope.length := by
  obtain ⟨i, hi⟩ := List.mem_iff_getElem?.mp hr
  obtain ⟨st, hget, _⟩ := assembleAll_getElem_some direct m hi ⟨0, []⟩
  refine ⟨_, List.mem_toArray.mpr (List.mem_of_getElem? hget), ?_⟩
  simp [Function.arity, Routine.function, Routine.scope]

/-- Each function of an assembled program has the code of the routine at its place. -/
theorem routine_of_getElem {direct m f} (h : (o.assemble direct m ⟨0, []⟩).1.functions[i]? = some f)
    :
    ∃ r st, o.routines[i]? = some r ∧ f = r.function m (r.body.code direct m .result st).1 := by
  have hget : (assembleAll direct m o.routines ⟨0, []⟩).1[i]? = some f := by
    simpa [Outline.assemble] using h
  cases hr : o.routines[i]? with
  | none =>
    rw [assembleAll_getElem_none direct m hr] at hget
    cases hget
  | some r =>
    obtain ⟨st, hsome, _⟩ := assembleAll_getElem_some direct m hr ⟨0, []⟩
    exact ⟨r, st, rfl, Option.some.inj (hget.symm.trans hsome)⟩

/-- The variable of a parameter has its node in it, so different nodes have different ones. -/
theorem paramVar_injective (m : Module) : Function.Injective (Conversion.paramVar m) := by
  intro id other heq
  cases heq
  rfl

/-- In a call, the variable of a parameter stands for what the parameter is bound to. -/
theorem lookup_allParams {α : Type} (m : Module) (r : Routine) (instrs : List Instr)
    (args : List α) (id : NodeId) :
    ((r.function m instrs).allParams.zip args).reverse.lookup (Conversion.paramVar m id) =
      (r.scope.zip args).reverse.lookup id := by
  have hparams : (r.function m instrs).allParams = r.scope.map (Conversion.paramVar m) := by
    simp [Function.allParams, Routine.function, Routine.scope]
  rw [hparams, lookup_zip_map_key (paramVar_injective m)]

/-- A call has a value for each parameter. -/
theorem provides_callFrame (m : Module) {args : List Value} (instrs : List Instr)
    (h : args.length = r.scope.length) :
    Provides m (Outline.bound r.scope args) (callFrame (r.function m instrs) args) r.scope := by
  intro id hid
  have hsame : List.Forall₂ Eq args args := List.forall₂_refl args
  obtain ⟨v, _, hv, _, _⟩ := lookup_zip_reverse hsame (Nat.le_of_eq h.symm) hid
  rw [callFrame, lookup_allParams, hv]
  simp [Outline.bound, hv]

section

variable {number : String → Nat} {o : Outline} {direct : Bool} {m : Module}

/-- Finding the function to be called is finding its routine. -/
theorem calledFunction_assemble (hnum : Numbers number o.table) {i args}
    {run : Function → RunM Value} {call}
    (h : ∀ r st, o.routines[i]? = some r → args.length = r.scope.length →
      Numbers number (r.body.table st.constructors) →
      run (r.function m (r.body.code direct m .result st).1) = call r) :
    calledFunction (o.assemble direct m ⟨0, []⟩).1 i args >>= run = o.called i args >>= call := by
  have hfunctions : (o.assemble direct m ⟨0, []⟩).1.functions[i]? =
      (assembleAll direct m o.routines ⟨0, []⟩).1[i]? := List.getElem?_toArray
  unfold calledFunction Outline.called
  rw [hfunctions]
  cases hi : o.routines[i]? with
  | none =>
    rw [assembleAll_getElem_none direct m hi]
    rfl
  | some r =>
    obtain ⟨st, hget, hstart⟩ := assembleAll_getElem_some direct m hi ⟨0, []⟩
    have harity : (r.function m (r.body.code direct m .result st).1).arity = r.scope.length := by
      simp [Function.arity, Routine.function, Routine.scope]
    rw [hget]
    simp only [harity]
    by_cases hargs : args.length = r.scope.length
    · rw [if_pos hargs, if_pos hargs, pure_bind, pure_bind]
      exact h r st hi hargs (hnum.of_prefix (hstart.trans (o.main.prefix_table _)))
    · rw [if_neg hargs, if_neg hargs]
      rfl

/-- A call in the assembled program is the call of its routine. -/
theorem invoke_assemble (hnum : Numbers number o.table) (hscoped : o.Scoped) (limit free : Nat) :
    invoke (o.assemble direct m ⟨0, []⟩).1 limit free = o.call number limit free := by
  -- inside a call one level less is free, so the body runs by the hypothesis
  induction free with
  | zero =>
    funext callee args
    cases callee with
    | intrinsic op => rfl
    | function i => exact calledFunction_assemble hnum fun _ _ _ _ _ => rfl
  | succ free ih =>
    funext callee args
    cases callee with
    | intrinsic op => rfl
    | function i =>
      refine calledFunction_assemble hnum ?_
      intro r st hr hargs htable
      have hbody := hscoped.routine r (List.mem_of_getElem? hr)
      have hframe := provides_callFrame m (r.body.code direct m .result st).1 hargs
      show (modify _ >>= fun _ => execBlock _ _
        ⟨(r.body.code direct m .result st).1, .result⟩ _) = _
      rw [ih, execBlock_code (Outline.call_intrinsic number o limit free) htable
        (hframe.of_subset hbody)]
      rfl

/-- An assembled program evaluates its entry as its outline does. -/
theorem execBlock_assemble (hnum : Numbers number o.table) (hscoped : o.Scoped) (limit : Nat) :
    execBlock (o.assemble direct m ⟨0, []⟩).1
        (invoke (o.assemble direct m ⟨0, []⟩).1 limit limit)
        (o.assemble direct m ⟨0, []⟩).1.entry [] =
      o.eval number limit := by
  rw [invoke_assemble hnum hscoped]
  refine execBlock_code (Outline.call_intrinsic number o limit limit) ?_ ?_
  · rw [assembleAll_constructors]
    exact hnum
  · intro id hid
    cases hscoped.main hid

/-- The answer to running an outline. -/
def Outline.run (number : String → Nat) (o : Outline) (limit : Nat) : Except RunError Execution :=
  match (o.eval number limit).run.run .start with
  | (.error e, _) => .error e
  | (.ok v, st) => .ok ⟨st.output, v⟩

/-- An assembled program runs as its outline does, however its intrinsics are called. -/
theorem run_assemble (hnum : Numbers number o.table) (hscoped : o.Scoped) (limit : Nat) :
    (run limit (o.assemble direct m ⟨0, []⟩).1).1 = o.run number limit := by
  unfold run Outline.run
  rw [execBlock_assemble hnum hscoped]
  rcases (o.eval number limit).run.run .start with ⟨_ | _, _⟩ <;> rfl

end

end Lamina.Flat
