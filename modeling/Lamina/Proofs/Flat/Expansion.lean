import Mathlib.Data.List.Perm.Subperm
import Lamina.Proofs.Core.Shape
import Lamina.Proofs.Flat.Term

/-!
# Closure conversion in two steps

Making the code of a node is expanding it to a term and cutting the term into instructions
(`node_eq`). The nesting bound of the walk is never reached on a lowered graph: each value is
written out into its own term nowhere, and below a value owned edges lead down in rank.
-/

namespace Lamina.Flat

open Lamina.Core (NodeId NodeKind Module)

namespace Conversion

variable {p : Plan} {scope inlining : List NodeId} {id target x func arg : NodeId} {op : Intrinsic}
  {m : Module} {fuel fuel' : Nat}

/-! ## The small steps -/

theorem bind_apply {α β : Type} (x : ConvertM α) (f : α → ConvertM β) (st : ConvertState) :
    (x >>= f) st =
      match x st with
      | .ok (a, st') => f a st'
      | .error e => .error e := by
  show Except.bind (x st) _ = _
  cases x st <;> rfl

theorem pure_apply {α : Type} (a : α) (st : ConvertState) :
    (pure a : ConvertM α) st = .ok (a, st) := rfl

theorem fresh_apply (st : ConvertState) : fresh st = .ok (.temp st.nextTemp, st.next) := rfl

theorem scopedVar_eq (m : Module) (scope : List NodeId) (id : NodeId) (st : ConvertState) :
    scopedVar m scope id st =
      (requireScoped m scope [id]).map fun _ => (paramVar m id, st) := by
  unfold scopedVar requireScoped
  by_cases h : scope.contains id
  · rw [if_pos h, if_pos h]
    rfl
  · rw [if_neg h, if_neg h]
    rfl

theorem constructor_eq (name : String) (dst : Var) (st : ConvertState) :
    constructor name dst st = .ok (conCode name dst st) := by
  unfold constructor conCode
  split
  · rfl
  · split
    · rfl
    · split
      · rfl
      · rw [bind_apply]
        cases h : st.constructors.idxOf? name with
        | some i =>
          have htag : tagOf name st = .ok (i + 1, st) := by
            simp only [tagOf, modifyGet, MonadStateOf.modifyGet, StateT.modifyGet, h]
            rfl
          rw [htag]
          rfl
        | none =>
          have htag : tagOf name st = .ok (st.constructors.length + 1,
              { st with constructors := st.constructors ++ [name] }) := by
            simp only [tagOf, modifyGet, MonadStateOf.modifyGet, StateT.modifyGet, h]
            rfl
          rw [htag]
          rfl

/-- The captures are checked one by one and applied one by one. -/
theorem applyCaptures_eq (m : Module) (scope : List NodeId) (dst func : Var)
    (captures : List NodeId) (st : ConvertState) :
    applyCaptures m scope dst func captures st =
      (requireScoped m scope captures).map fun _ => captureCode m dst func captures st := by
  induction captures generalizing func st with
  | nil => rfl
  | cons id rest ih =>
    cases rest with
    | nil =>
      simp only [applyCaptures, bind_apply, scopedVar_eq]
      cases requireScoped m scope [id] <;> rfl
    | cons next rest =>
      simp only [applyCaptures, bind_apply, scopedVar_eq, fresh_apply, ih]
      -- the first parameter that is not in scope is the one that is complained about
      by_cases h : scope.contains id
      · rw [show requireScoped m scope [id] = .ok () from if_pos h,
          show requireScoped m scope (id :: next :: rest) =
            requireScoped m scope (next :: rest) from if_pos h]
        simp only [Except.map]
        cases requireScoped m scope (next :: rest) <;> rfl
      · rw [show requireScoped m scope [id] = .error (.unboundPlaceholder (m.label id))
            from if_neg h,
          show requireScoped m scope (id :: next :: rest) =
            .error (.unboundPlaceholder (m.label id)) from if_neg h]
        rfl

theorem lambda_eq (p : Plan) (scope : List NodeId) (id : NodeId) (dst : Var) (st : ConvertState) :
    lambda p scope id dst st =
      (expandLambda p scope id).map fun t => t.code p.direct p.module dst st := by
  unfold lambda expandLambda
  cases p.function? id with
  | none => rfl
  | some function =>
    cases hcaps : p.captures.of id with
    | nil => rfl
    | cons first rest =>
      simp only [bind_apply, fresh_apply, applyCaptures_eq]
      cases requireScoped p.module scope (first :: rest) <;> rfl

/-! ## Operands -/

/-- The parameter that a node is or refers to. -/
def paramOf? (m : Module) (id : NodeId) : Option NodeId :=
  match m.kind id with
  | .placeholder => some id
  | .indirection target => if m.kind target = .placeholder then some target else none
  | _ => none

/-- The intrinsic that a node is or refers to. -/
def headOp? (m : Module) (id : NodeId) : Option Intrinsic :=
  match m.kind id with
  | .intrinsic op => some op
  | .indirection target =>
    match m.kind target with
    | .intrinsic op => some op
    | _ => none
  | _ => none

theorem expand_of_paramOf (h : paramOf? p.module id = some x) (fuel : Nat)
    (inlining : List NodeId) :
    expand p scope (fuel + 1) inlining id =
      (requireScoped p.module scope [x]).map fun _ => .param x := by
  unfold paramOf? at h
  split at h
  · rename_i hkind
    cases h
    simp only [expand, hkind]
  · rename_i target hkind
    split at h
    · rename_i htarget
      cases h
      simp only [expand, hkind, expandReference, htarget]
    · cases h
  · cases h

theorem headOp_eq_some (h : headOp? m id = some op) : m.kind id = .intrinsic op ∨
    ∃ target, m.kind id = .indirection target ∧ m.kind target = .intrinsic op := by
  unfold headOp? at h
  split at h
  · cases h
    exact .inl ‹_›
  · split at h
    · cases h
      exact .inr ⟨_, ‹_›, ‹_›⟩
    · cases h
  · cases h

theorem expand_of_headOp (h : headOp? p.module id = some op) (scope : List NodeId) (fuel : Nat)
    (inlining : List NodeId) : expand p scope (fuel + 1) inlining id = .ok (.prim op) := by
  obtain hkind | ⟨target, hkind, htarget⟩ := headOp_eq_some h
  · simp only [expand, hkind]
  · simp only [expand, hkind, expandReference, htarget]

/-- Only parameters, and uses of them, are expanded to parameters. -/
theorem paramOf_of_expands (h : Expands p scope id (.param x)) : paramOf? p.module id = some x := by
  cases h with
  | param hkind _ => simp [paramOf?, hkind]
  | reference hkind htarget =>
    cases htarget with
    | param hplaceholder _ => simp [paramOf?, hkind, hplaceholder]

theorem headOp_of_expands (h : Expands p scope id (.prim op)) : headOp? p.module id = some op := by
  cases h with
  | prim hkind => simp [headOp?, hkind]
  | reference hkind htarget =>
    cases htarget with
    | prim hop => simp [headOp?, hkind, hop]

theorem operandCode_of_ne {t : Term} (h : ∀ x, t ≠ .param x)
    (code : Var → ConvertState → List Instr × ConvertState) (st : ConvertState) :
    operandCode m t code st =
      (((code (.temp st.nextTemp) st.next).1, .temp st.nextTemp),
        (code (.temp st.nextTemp) st.next).2) := by
  unfold operandCode
  split
  · exact absurd rfl (h _)
  · rfl

/-- An operand is expanded, and its term made available. -/
theorem operand_eq {code} (hcode : ∀ dst st, code id dst st =
      (expand p scope (fuel + 1) inlining id).map fun t => t.code p.direct p.module dst st)
    (st : ConvertState) :
    operand p scope code id st =
      (expand p scope (fuel + 1) inlining id).map fun t =>
        operandCode p.module t (t.code p.direct p.module) st := by
  have hunfold : operand p scope code id st =
      (match paramOf? p.module id with
        | some x => (do return ([], ← scopedVar p.module scope x) : ConvertM (List Instr × Var))
        | none => (do
          let dst ← fresh
          return (← code id dst, dst))) st := rfl
  rw [hunfold]
  cases hparam : paramOf? p.module id with
  | some x =>
    rw [expand_of_paramOf hparam]
    simp only [bind_apply, scopedVar_eq]
    cases requireScoped p.module scope [x] <;> rfl
  | none =>
    simp only [bind_apply, fresh_apply, hcode]
    cases hexpand : expand p scope (fuel + 1) inlining id with
    | error e => rfl
    | ok t =>
      have hne : ∀ x, t ≠ .param x := by
        rintro x rfl
        rw [paramOf_of_expands (expand_expands hexpand)] at hparam
        cases hparam
      simp only [Except.map, operandCode_of_ne hne]
      rfl

/-! ## Direct calls -/

/-- No intrinsic takes more than two arguments. -/
theorem saturated_eq_none {args} (h : 2 < args.length) : saturated? m fuel id args = none := by
  induction fuel generalizing id args with
  | zero => rfl
  | succ fuel ih =>
    have harity : ∀ op : Intrinsic, args.length ≠ op.arity := by
      intro op
      cases op <;> simp only [Intrinsic.arity] <;> omega
    unfold saturated?
    split
    · exact ih (by simp only [List.length_cons]; omega)
    · rw [if_neg (harity _)]
    · split
      · rw [if_neg (harity _)]
      · rfl
    · rfl

theorem saturated_of_headOp (h : headOp? m id = some op) (fuel : Nat) (args : List NodeId) :
    saturated? m (fuel + 1) id args = if args.length = op.arity then some (op, args) else none := by
  unfold saturated?
  obtain hkind | ⟨target, hkind, htarget⟩ := headOp_eq_some h
  · rw [hkind]
  · rw [hkind]
    simp only [htarget]

theorem saturated_of_other (hop : headOp? m id = none)
    (happ : ∀ func arg, m.kind id ≠ .application func arg) (fuel : Nat) (args : List NodeId) :
    saturated? m fuel id args = none := by
  cases fuel with
  | zero => rfl
  | succ fuel =>
    unfold headOp? at hop
    unfold saturated?
    split
    · rename_i func arg hkind
      exact absurd hkind (happ func arg)
    · rename_i hkind
      rw [hkind] at hop
      cases hop
    · rename_i hkind
      rw [hkind] at hop
      split
      · rename_i htarget
        simp only [htarget] at hop
        cases hop
      · rfl
    · rfl

/-- What an application may call directly: an intrinsic that takes one argument or, if its function
is itself an application, one that takes two. -/
inductive Saturates (m : Module) (func arg : NodeId) : Option (Intrinsic × List NodeId) → Prop
  | one {op : Intrinsic} (hop : headOp? m func = some op) (harity : op.arity = 1) :
      Saturates m func arg (some (op, [arg]))
  | two {op head first} (hfunc : m.kind func = .application head first)
      (hop : headOp? m head = some op) (harity : op.arity = 2) :
      Saturates m func arg (some (op, [first, arg]))
  | none (hone : ∀ op, headOp? m func = some op → op.arity ≠ 1)
      (htwo : ∀ head first op, m.kind func = .application head first →
        headOp? m head = some op → op.arity ≠ 2) :
      Saturates m func arg none

theorem headOp_of_application (hkind : m.kind id = .application func arg) :
    headOp? m id = none := by
  unfold headOp?
  rw [hkind]

/-- The walk along the spine of an application ends at its head, or with more arguments than any
intrinsic takes. -/
theorem saturated_saturates (hkind : m.kind id = .application func arg) (fuel : Nat) :
    Saturates m func arg (saturated? m (fuel + 3) id []) := by
  have hstep : saturated? m (fuel + 3) id [] = saturated? m (fuel + 2) func [arg] := by
    rw [saturated?, hkind]
  rw [hstep]
  by_cases hfunc : ∃ head first, m.kind func = .application head first
  · obtain ⟨head, first, hfunc⟩ := hfunc
    have hstep : saturated? m (fuel + 2) func [arg] =
        saturated? m (fuel + 1) head [first, arg] := by
      rw [saturated?, hfunc]
    have hone : ∀ op, headOp? m func = some op → op.arity ≠ 1 := by
      intro op hop
      rw [headOp_of_application hfunc] at hop
      cases hop
    rw [hstep]
    cases hhead : headOp? m head with
    | some op =>
      rw [saturated_of_headOp hhead]
      by_cases harity : op.arity = 2
      · rw [if_pos (by simp [harity])]
        exact .two hfunc hhead harity
      · rw [if_neg (by simpa [eq_comm] using harity)]
        refine .none hone fun head' first' op' hfunc' hop' => ?_
        rw [hfunc] at hfunc'
        cases hfunc'
        rw [hhead] at hop'
        cases hop'
        exact harity
    | none =>
      have hnone : saturated? m (fuel + 1) head [first, arg] = none := by
        by_cases happ : ∃ next second, m.kind head = .application next second
        · obtain ⟨next, second, hnext⟩ := happ
          rw [saturated?, hnext]
          exact saturated_eq_none (by simp)
        · exact saturated_of_other hhead (fun f a h => happ ⟨f, a, h⟩) _ _
      rw [hnone]
      refine .none hone fun head' first' op' hfunc' hop' => ?_
      rw [hfunc] at hfunc'
      cases hfunc'
      rw [hhead] at hop'
      cases hop'
  · have htwo : ∀ head first op, m.kind func = .application head first →
        headOp? m head = some op → op.arity ≠ 2 :=
      fun head first op h => absurd ⟨head, first, h⟩ hfunc
    cases hop : headOp? m func with
    | some op =>
      rw [saturated_of_headOp hop]
      by_cases harity : op.arity = 1
      · rw [if_pos (by simp [harity])]
        exact .one hop harity
      · rw [if_neg (by simpa [eq_comm] using harity)]
        refine .none (fun op' hop' => ?_) htwo
        rw [hop] at hop'
        cases hop'
        exact harity
    | none =>
      rw [saturated_of_other hop fun f a h => hfunc ⟨f, a, h⟩]
      refine .none (fun op' hop' => ?_) htwo
      rw [hop] at hop'
      cases hop'

/-- An application whose head is no intrinsic is made the generic way. -/
theorem code_app_of_ne {direct func arg}
    (hprim : ∀ op, func = .prim op → (direct && op.arity == 1) = false)
    (happ : ∀ op first, func = .app (.prim op) first → (direct && op.arity == 2) = false)
    (dst : Var) (st : ConvertState) :
    (Term.app func arg).code direct m dst st =
      pairCode (operandCode m func (func.code direct m)) (operandCode m arg (arg.code direct m))
        (.apply dst) st := by
  cases func with
  | prim op => simp [Term.code, hprim op rfl]
  | app head first =>
    cases head with
    | prim op => simp [Term.code, happ op first rfl]
    | _ => rfl
  | _ => rfl

/-! ## The bound on nesting -/

/-- The values that are being written out are nodes of the graph, each of them once. -/
structure Inlinable (m : Module) (inlining : List NodeId) : Prop where
  nodup : inlining.Nodup
  lt_size : ∀ id ∈ inlining, id < m.graph.size

/-- How deep the walk of a node can nest: as far as its rank, and for each value that is not being
written out as far as any rank. -/
def room (m : Module) (inlining : List NodeId) (id : NodeId) : Nat :=
  (m.graph.size - inlining.length) * (m.graph.size + 2) + m.rank id + 1

theorem Inlinable.nil (m : Module) : Inlinable m [] := ⟨List.nodup_nil, nofun⟩

theorem Inlinable.cons (h : Inlinable m inlining) (hlt : target < m.graph.size)
    (hnew : target ∉ inlining) : Inlinable m (target :: inlining) := by
  refine ⟨List.nodup_cons.mpr ⟨hnew, h.nodup⟩, ?_⟩
  intro id hid
  rcases List.mem_cons.mp hid with rfl | hid
  · exact hlt
  · exact h.lt_size id hid

theorem Inlinable.length_le (h : Inlinable m inlining) : inlining.length ≤ m.graph.size := by
  have hsub : inlining ⊆ List.range m.graph.size := fun id hid =>
    List.mem_range.mpr (h.lt_size id hid)
  simpa using (List.subperm_of_subset h.nodup hsub).length_le

theorem room_child (shaped : m.Shaped) (inlining : List NodeId) {child : NodeId}
    (h : child ∈ (m.kind id).children) : room m inlining child < room m inlining id := by
  have := shaped.rank_child h
  unfold room
  omega

theorem room_inline (h : Inlinable m (target :: inlining)) (id : NodeId) :
    room m (target :: inlining) target < room m inlining id := by
  -- one value more is being written out: that takes a stride of `size + 2`, above any rank
  have hlen : inlining.length + 1 ≤ m.graph.size := h.length_le
  have hrank := m.rank_le target
  obtain ⟨rest, hrest⟩ : ∃ rest, m.graph.size - inlining.length = rest + 1 :=
    ⟨m.graph.size - inlining.length - 1, by omega⟩
  have hrest' : m.graph.size - (inlining.length + 1) = rest := by omega
  unfold room
  rw [List.length_cons, hrest, hrest', Nat.add_mul]
  omega

theorem room_le_walkBound (m : Module) (id : NodeId) : room m [] id ≤ walkBound m := by
  have hrank := m.rank_le id
  unfold room walkBound
  rw [List.length_nil, Nat.sub_zero, Nat.add_mul]
  omega

theorem room_inline_le_walkBound (h : Inlinable m [id]) : room m [id] id ≤ walkBound m :=
  Nat.le_of_lt (Nat.lt_of_lt_of_le (room_inline h id) (room_le_walkBound m id))

/-! ## The walk -/

/-- A use by name is expanded, and its term cut into code. -/
theorem reference_eq {inline expanded}
    (hinline : target ∉ inlining → ∀ dst st, inline target dst st =
      (expanded target).map fun t => t.code p.direct p.module dst st) (dst : Var)
    (st : ConvertState) :
    reference p scope inlining inline target dst st =
      (expandReference p scope inlining expanded target).map fun t =>
        t.code p.direct p.module dst st := by
  -- all other targets are values, which are written out unless they are being so
  have hvalue : (if inlining.contains target then
        (throw (.cyclicValue (p.module.label target)) : ConvertM (List Instr))
      else inline target dst) st =
      (if inlining.contains target then .error (.cyclicValue (p.module.label target))
        else (expanded target).map Term.inlined).map fun t =>
          t.code p.direct p.module dst st := by
    by_cases hmem : target ∈ inlining
    · rw [if_pos (List.contains_iff_mem.mpr hmem), if_pos (List.contains_iff_mem.mpr hmem)]
      rfl
    · have hnot : ¬ inlining.contains target = true := fun h => hmem (List.contains_iff_mem.mp h)
      rw [if_neg hnot, if_neg hnot, hinline hmem]
      cases expanded target <;> rfl
  unfold reference expandReference
  cases hkind : p.module.kind target
  case placeholder =>
    simp only [bind_apply, scopedVar_eq]
    cases requireScoped p.module scope [target] <;> rfl
  case lambda =>
    cases hslot : p.slot? target with
    | some slot => rfl
    | none => exact lambda_eq p scope target dst st
  case intrinsic => rfl
  case noForm => rfl
  case constructor => exact hvalue
  case indirection => exact hvalue
  case application => exact hvalue
  case literal => exact hvalue
  case conditional => exact hvalue

section

variable {p : Plan} {scope inlining : List NodeId} {id func arg first : NodeId}
  {code : NodeId → Var → ConvertM (List Instr)}
  {expandedFunc expandedFirst expandedArg : Except ConvertError Term}

/-- The term of an application is made of the terms of its two sides. -/
theorem expand_application (hkind : p.module.kind id = .application func arg) (fuel : Nat) :
    expand p scope (fuel + 1) inlining id =
      (expand p scope fuel inlining func).bind fun f =>
        (expand p scope fuel inlining arg).map fun a => .app f a := by
  simp only [expand, hkind]
  cases expand p scope fuel inlining func with
  | error e => rfl
  | ok f => cases expand p scope fuel inlining arg <;> rfl

/-- Applying a closure: the code of both sides, and then the application. -/
theorem apply_eq
    (hfunc : ∀ st, operand p scope code func st = expandedFunc.map fun t =>
      operandCode p.module t (t.code p.direct p.module) st)
    (harg : ∀ st, operand p scope code arg st = expandedArg.map fun t =>
      operandCode p.module t (t.code p.direct p.module) st)
    (dst : Var) (st : ConvertState) :
    (do
      let (funcCode, func) ← operand p scope code func
      let (argCode, arg) ← operand p scope code arg
      return funcCode ++ argCode ++ [.apply dst func arg] : ConvertM (List Instr)) st =
      expandedFunc.bind fun f => expandedArg.map fun a =>
        pairCode (operandCode p.module f (f.code p.direct p.module))
          (operandCode p.module a (a.code p.direct p.module)) (.apply dst) st := by
  simp only [bind_apply, hfunc, harg]
  cases expandedFunc with
  | error e => rfl
  | ok f =>
    cases expandedArg with
    | error e => rfl
    | ok a => rfl

/-- Calling an intrinsic of one argument. -/
theorem call_one_eq (harg : ∀ st, operand p scope code arg st = expandedArg.map fun t =>
      operandCode p.module t (t.code p.direct p.module) st) (hdirect : p.direct = true)
    (harity : op.arity = 1) (dst : Var) (st : ConvertState) :
    (do
      let (instrs, vars) ← operands p scope code [arg]
      return instrs ++ [.call dst op vars] : ConvertM (List Instr)) st =
      expandedArg.map fun a => (Term.app (.prim op) a).code p.direct p.module dst st := by
  simp only [operands, bind_apply, pure_apply, harg]
  cases expandedArg with
  | error e => rfl
  | ok a => simp [Except.map, Term.code, hdirect, harity]

/-- Calling an intrinsic of two arguments. -/
theorem call_two_eq (hfirst : ∀ st, operand p scope code first st = expandedFirst.map fun t =>
      operandCode p.module t (t.code p.direct p.module) st)
    (harg : ∀ st, operand p scope code arg st = expandedArg.map fun t =>
      operandCode p.module t (t.code p.direct p.module) st) (hdirect : p.direct = true)
    (harity : op.arity = 2) (dst : Var) (st : ConvertState) :
    (do
      let (instrs, vars) ← operands p scope code [first, arg]
      return instrs ++ [.call dst op vars] : ConvertM (List Instr)) st =
      expandedFirst.bind fun f => expandedArg.map fun a =>
        (Term.app (.app (.prim op) f) a).code p.direct p.module dst st := by
  simp only [operands, bind_apply, pure_apply, hfirst, harg]
  cases expandedFirst with
  | error e => rfl
  | ok f =>
    cases expandedArg with
    | error e => rfl
    | ok a => simp [Except.map, Except.bind, Term.code, hdirect, harity, pairCode]

/-- Unless the application saturates an intrinsic, its term is cut into the application of closures.
-/
theorem code_app_of_unsaturated {f a : Term} (hf : expand p scope fuel inlining func = .ok f)
    (hnone : p.direct = true → Saturates p.module func arg none) (dst : Var) (st : ConvertState) :
    (Term.app f a).code p.direct p.module dst st =
      pairCode (operandCode p.module f (f.code p.direct p.module))
        (operandCode p.module a (a.code p.direct p.module)) (.apply dst) st := by
  cases hdirect : p.direct with
  | false => exact code_app_of_ne (fun _ _ => rfl) (fun _ _ _ => rfl) dst st
  | true =>
    cases hnone hdirect with
    | none hone htwo =>
      have hexpands := expand_expands hf
      refine code_app_of_ne ?_ ?_ dst st
      · rintro op rfl
        simp [hone op (headOp_of_expands hexpands)]
      · rintro op first rfl
        cases hexpands with
        | app hfunc hhead _ => simp [htwo _ _ op hfunc (headOp_of_expands hhead)]
        | reference _ htarget => cases htarget

end

/-- The code of an application, given the terms of its two sides: a direct call if its head is an
intrinsic that gets all its arguments, and the generic application of closures otherwise. -/
theorem application_eq (shaped : p.module.Shaped) {id func arg : Nat}
    (hkind : p.module.kind id = .application func arg)
    (hroom : room p.module inlining id ≤ fuel' + 1)
    (hnode : ∀ child fuel', room p.module inlining child < room p.module inlining id →
      room p.module inlining child ≤ fuel' → ∀ dst st,
        node p scope fuel inlining child dst st =
          (expand p scope fuel' inlining child).map fun t => t.code p.direct p.module dst st)
    (dst : Var) (st : ConvertState) :
    node p scope (fuel + 1) inlining id dst st =
      (expand p scope (fuel' + 1) inlining id).map fun t => t.code p.direct p.module dst st := by
  have hfunc : func ∈ (p.module.kind id).children := by simp [hkind, NodeKind.children]
  have harg : arg ∈ (p.module.kind id).children := by simp [hkind, NodeKind.children]
  have hroomFunc := room_child shaped inlining hfunc
  have hroomArg := room_child shaped inlining harg
  obtain ⟨k, rfl⟩ : ∃ k, fuel' = k + 1 := ⟨fuel' - 1, by unfold room at *; omega⟩
  have hopFunc := operand_eq (hnode func (k + 1) hroomFunc (by omega))
  have hopArg := operand_eq (hnode arg (k + 1) hroomArg (by omega))
  have hgeneric : (p.direct = true → Saturates p.module func arg none) →
      (do
        let (funcCode, func) ← operand p scope (node p scope fuel inlining) func
        let (argCode, arg) ← operand p scope (node p scope fuel inlining) arg
        return funcCode ++ argCode ++ [.apply dst func arg] : ConvertM (List Instr)) st =
      (expand p scope (k + 2) inlining id).map fun t => t.code p.direct p.module dst st := by
    intro hnone
    rw [apply_eq hopFunc hopArg, expand_application hkind]
    cases hf : expand p scope (k + 1) inlining func with
    | error e => rfl
    | ok f =>
      cases expand p scope (k + 1) inlining arg with
      | error e => rfl
      | ok a => simp only [Except.bind, Except.map, code_app_of_unsaturated hf hnone]
  rw [node, hkind]
  simp only
  by_cases hdirect : p.direct = true
  · -- the node and its function are two nodes, so the spine is walked to its head
    obtain ⟨j, hj⟩ : ∃ j, p.module.graph.size + 1 = j + 3 := by
      have hid : id < p.module.graph.size := by
        by_contra hge
        rw [Module.kind_of_size_le (Nat.le_of_not_lt hge)] at hkind
        cases hkind
      have hne : func ≠ id := by
        rintro rfl
        exact Nat.lt_irrefl _ hroomFunc
      have hlt := shaped.child_lt hfunc
      exact ⟨p.module.graph.size - 2, by omega⟩
    have hsaturates := saturated_saturates hkind j
    rw [if_pos hdirect, hj]
    generalize saturated? p.module (j + 3) id [] = called at hsaturates ⊢
    cases hsaturates with
    | one hop harity =>
      simp only
      rw [call_one_eq hopArg hdirect harity, expand_application hkind, expand_of_headOp hop]
      cases expand p scope (k + 1) inlining arg <;> rfl
    | @two op head first hfuncKind hop harity =>
      have hfirst : first ∈ (p.module.kind func).children := by
        simp [hfuncKind, NodeKind.children]
      have hroomFirst := room_child shaped inlining hfirst
      obtain ⟨i, rfl⟩ : ∃ i, k = i + 1 := ⟨k - 1, by unfold room at *; omega⟩
      have hopFirst := operand_eq (hnode first (i + 1) (by omega) (by omega))
      simp only
      rw [call_two_eq hopFirst hopArg hdirect harity, expand_application hkind,
        expand_application hfuncKind, expand_of_headOp hop]
      cases expand p scope (i + 1) inlining first with
      | error e => rfl
      | ok f => cases expand p scope (i + 2) inlining arg <;> rfl
    | none hone htwo => exact hgeneric fun _ => .none hone htwo
  · rw [if_neg hdirect]
    exact hgeneric fun h => absurd h hdirect

/-- Making the code of a node is expanding it and cutting the term into instructions, whatever the
bounds on nesting, if only they leave room. -/
theorem node_eq (shaped : p.module.Shaped) (scope : List NodeId) {id : Nat}
    (hinl : Inlinable p.module inlining) (hroom : room p.module inlining id ≤ fuel)
    (hroom' : room p.module inlining id ≤ fuel') (dst : Var) (st : ConvertState) :
    node p scope fuel inlining id dst st =
      (expand p scope fuel' inlining id).map fun t => t.code p.direct p.module dst st := by
  induction fuel generalizing fuel' inlining id dst st with
  | zero =>
    unfold room at hroom
    omega
  | succ fuel ih =>
    -- the walk and the expansion have bounds of their own, and both leave room for the children
    obtain ⟨k, rfl⟩ : ∃ k, fuel' = k + 1 := ⟨fuel' - 1, by unfold room at *; omega⟩
    have hchild : ∀ child fuel', room p.module inlining child < room p.module inlining id →
        room p.module inlining child ≤ fuel' → ∀ dst st,
          node p scope fuel inlining child dst st =
            (expand p scope fuel' inlining child).map fun t =>
              t.code p.direct p.module dst st :=
      fun child fuel' hless hle dst st => ih hinl (by omega) hle dst st
    cases hkind : p.module.kind id with
    | application func arg => exact application_eq shaped hkind hroom' hchild dst st
    | noForm => simp only [node, expand, hkind]; rfl
    | placeholder =>
      simp only [node, expand, hkind, bind_apply, scopedVar_eq]
      cases requireScoped p.module scope [id] <;> rfl
    | constructor name => simp only [node, expand, hkind, constructor_eq]; rfl
    | intrinsic op => simp only [node, expand, hkind]; rfl
    | literal value => cases value <;> simp only [node, expand, hkind] <;> rfl
    | lambda params body => simp only [node, expand, hkind, lambda_eq]
    | indirection target =>
      simp only [node, expand, hkind]
      apply reference_eq
      intro hnew dst st
      have hinl' := hinl.cons (shaped.target_lt hkind) hnew
      have hless := room_inline hinl' id
      exact ih hinl' (by omega) (by omega) dst st
    | conditional test onTrue onFalse =>
      have hroomOf : ∀ {child}, child ∈ (p.module.kind id).children →
          room p.module inlining child < room p.module inlining id :=
        fun h => room_child shaped inlining h
      have htest := @hroomOf test (by simp [hkind, NodeKind.children])
      have hyes := @hroomOf onTrue (by simp [hkind, NodeKind.children])
      have hno := @hroomOf onFalse (by simp [hkind, NodeKind.children])
      obtain ⟨i, rfl⟩ : ∃ i, k = i + 1 := ⟨k - 1, by unfold room at *; omega⟩
      have hopTest := operand_eq (hchild test (i + 1) htest (by omega))
      rw [node, expand, hkind]
      simp only [block, bind_apply, pure_apply, fresh_apply, hopTest,
        hchild onTrue (i + 1) hyes (by omega), hchild onFalse (i + 1) hno (by omega)]
      cases expand p scope (i + 1) inlining test with
      | error e => rfl
      | ok t =>
        cases expand p scope (i + 1) inlining onTrue with
        | error e => rfl
        | ok y => cases expand p scope (i + 1) inlining onFalse <;> rfl

end Conversion

end Lamina.Flat
