import Lamina.Proofs.Core.Eval
import Lamina.Proofs.Flat.Plan

/-!
# An outline does what its graph says

A value of an evaluation of the graph is represented by a value of a run of the outline: a closure
over an environment by a closure that has been applied to the captured parameters first. Wherever an
evaluation finishes, the term of the node ends as the evaluation does (`eval_follows`).
-/

namespace Lamina.Flat

open Lamina.Core (NodeId Module Env Closure)
open Lamina.Reference (EvalM Follows callPrim)
open Lamina.Machine (Value RunM apply runIntrinsic callIntrinsic)

/-! ## Values -/

/-- How values of an evaluation are represented in a run. -/
inductive Represents (p : Plan) (number : String → Nat) : Core.Value → Value → Prop
  | int (n : Int64) : Represents p number (.int n) (.int n)
  | str (text : String) : Represents p number (.str text) (.str text)
  | con (name : String) : Represents p number (.con name) (.con (number name) [])
  | prim {op args margs} (hlen : args.length < op.arity)
      (hargs : List.Forall₂ (Represents p number) args margs) :
      Represents p number (.prim op args) (.closure (.intrinsic op) op.arity margs)
  | closure {c params args captured margs mcaptured function}
      (hkind : p.module.kind c.lambda = .lambda params c.body)
      (hfunction : p.function? c.lambda = some function)
      (hlookup : List.Forall₂ (fun id v => c.env.lookup id = some v) (p.captures.of c.lambda)
        captured) (hcaptured : List.Forall₂ (Represents p number) captured mcaptured)
      (hlen : args.length < c.arity p.module)
      (hargs : List.Forall₂ (Represents p number) args margs) :
      Represents p number (.closure c args)
        (.closure (.function function) (p.arity c.lambda) (mcaptured ++ margs))

/-- What can be seen of a value and of the one that represents it: the same integer or string, the
number of the constructor, and a function for a function, for which as many arguments are missing.
-/
def Corresponds (m : Module) (number : String → Nat) : Core.Value → Value → Prop
  | .int n, w => w = .int n
  | .str text, w => w = .str text
  | .con name, w => w = .con (number name) []
  | .prim op args, w => ∃ held, w = .closure (.intrinsic op) op.arity held ∧
      held.length = args.length
  | .closure c args, w => ∃ function arity held, w = .closure (.function function) arity held ∧
      arity + args.length = held.length + c.arity m

section

variable {p : Plan} {number : String → Nat} {v : Core.Value} {w : Value} {id params body : NodeId}
  {args : List Core.Value} {margs : List Value} {scope : List NodeId} {env : Env}
  {menv : NodeId → Value}

/-- An intrinsic sees the same of a value and of what represents it. -/
theorem Represents.similar (h : Represents p number v w) : Value.Similar (v.view number) w := by
  cases h with
  | int n => exact .int n
  | str text => exact .str text
  | con name => exact .con _ [] []
  | prim _ _ => exact .closure _ _ _ _ _ _
  | closure _ _ _ _ _ _ => exact .closure _ _ _ _ _ _

theorem Represents.corresponds (h : Represents p number v w) : Corresponds p.module number v w := by
  cases h with
  | int n => rfl
  | str text => rfl
  | con name => rfl
  | prim hlen hargs => exact ⟨_, rfl, hargs.length_eq.symm⟩
  | closure hkind hfunction hlookup hcaptured hlen hargs =>
    refine ⟨_, _, _, rfl, ?_⟩
    rw [Plan.arity, Core.Closure.arity, List.length_append, ← hcaptured.length_eq,
      ← hlookup.length_eq, ← hargs.length_eq]
    omega

theorem represents_constructor (name : String) :
    Represents p number (.ofConstructor name) (conValue number name) := by
  unfold Reference.Value.ofConstructor conValue
  split
  · exact .int 1
  · split
    · exact .int 0
    · exact .con name

theorem represents_answer (hunit : number "()" = 0) {v : Value} (h : v.Plain) :
    Represents p number (.ofAnswer v) v := by
  cases v with
  | int n => exact .int n
  | str text => exact .str text
  | con tag fields =>
    cases h
    exact hunit ▸ .con "()"
  | closure callee arity args => cases h

theorem callPrim_follows (hunit : number "()" = 0) {op : Intrinsic} (hlen : args.length = op.arity)
    (hargs : List.Forall₂ (Represents p number) args margs) :
    Follows (Represents p number) (callPrim number op args) (runIntrinsic op margs) := by
  have hsimilar : callIntrinsic op (args.map (·.view number)) = callIntrinsic op margs :=
    Machine.callIntrinsic_similar op
      (List.forall₂_map_left_iff.mpr (hargs.imp fun _ _ h => h.similar))
  have hends := Machine.callIntrinsic_ends (hargs.length_eq.symm.trans hlen)
  unfold callPrim runIntrinsic
  rw [hsimilar]
  cases h : callIntrinsic op margs with
  | error e => exact fun st => ⟨st, rfl, rfl⟩
  | ok answer =>
    rw [h] at hends
    exact fun st => ⟨_, _, rfl, rfl, represents_answer hunit hends⟩

theorem condition_follows (h : Represents p number v w) :
    Follows Eq (Reference.condition number v) (Machine.condition w) := by
  cases h with
  | int n => exact .pure rfl
  | _ => exact .throw _ _

/-! ## Environments -/

/-- The parameters in scope have values, which are represented. -/
def Provided (p : Plan) (number : String → Nat) (scope : List NodeId) (env : Env)
    (menv : NodeId → Value) : Prop :=
  ∀ id ∈ scope, ∃ v, env.lookup id = some v ∧ Represents p number v (menv id)

/-- In a call each parameter of the routine, captured or not, has a value that represents the one in
the environment of the body. -/
theorem provided_call {c : Closure} {captured mcaptured}
    (hlookup : List.Forall₂ (fun id v => c.env.lookup id = some v) (p.captures.of c.lambda)
      captured) (hcaptured : List.Forall₂ (Represents p number) captured mcaptured)
    (hlen : args.length = c.arity p.module) (hargs : List.Forall₂ (Represents p number) args margs)
    :
    Provided p number (p.captures.of c.lambda ++ p.module.params c.lambda) (c.bind p.module args)
      (Outline.bound (p.captures.of c.lambda ++ p.module.params c.lambda)
        (mcaptured ++ margs)) := by
  have hbound := Outline.bound_append (hlookup.length_eq.trans hcaptured.length_eq).symm
    (hargs.length_eq.symm.trans hlen)
  -- own parameters are bound last: they hide the captured ones on both sides
  intro id hid
  by_cases hparam : id ∈ p.module.params c.lambda
  · obtain ⟨v, w, hv, hw, hvw⟩ := lookup_zip_reverse hargs (Nat.le_of_eq hlen.symm) hparam
    refine ⟨v, ?_, ?_⟩
    · rw [Core.Closure.bind, List.lookup_append, hv]
      rfl
    · rw [hbound, if_pos hparam, Outline.bound, hw]
      exact hvw
  · have hcapture : id ∈ p.captures.of c.lambda := (List.mem_append.mp hid).resolve_right hparam
    have hskip : ∀ {α : Type} (values : List α),
        ((p.module.params c.lambda).zip values).reverse.lookup id = none := by
      intro α values
      refine lookup_eq_none_iff_not_mem.mpr fun hkey => hparam ?_
      obtain ⟨binding, hbinding, rfl⟩ := List.mem_map.mp hkey
      exact (List.of_mem_zip (List.mem_reverse.mp hbinding)).1
    obtain ⟨v, w, hv, hw, hvw⟩ :=
      lookup_zip_reverse hcaptured (Nat.le_of_eq hlookup.length_eq) hcapture
    refine ⟨v, ?_, ?_⟩
    · obtain ⟨before, after, heq, _⟩ := List.lookup_eq_some_iff.mp hv
      have hmem : (id, v) ∈ (p.captures.of c.lambda).zip captured := by
        rw [← List.mem_reverse, heq]
        simp
      rw [Core.Closure.bind, List.lookup_append, hskip]
      exact (List.forall₂_iff_zip.mp hlookup).2 hmem
    · rw [hbound, if_neg hparam, Outline.bound, hw]
      exact hvw

/-! ## Applications -/

/-- Wherever a closure has all its arguments, the call of its routine ends as the call of the
closure does. -/
def CallsFollow (p : Plan) (number : String → Nat)
    (call : Closure → List Core.Value → EvalM Core.Value)
    (invoke : Callee → List Value → RunM Value) : Prop :=
  ∀ {c params args captured margs mcaptured function},
    p.module.kind c.lambda = .lambda params c.body → p.function? c.lambda = some function →
    List.Forall₂ (fun id v => c.env.lookup id = some v) (p.captures.of c.lambda) captured →
    List.Forall₂ (Represents p number) captured mcaptured → args.length = c.arity p.module →
    List.Forall₂ (Represents p number) args margs →
    Follows (Represents p number) (call c args) (invoke (.function function) (mcaptured ++ margs))

variable {invoke : Callee → List Value → RunM Value}
  {call : Closure → List Core.Value → EvalM Core.Value}

theorem apply_follows (hunit : number "()" = 0)
    (hmax : ∀ {id i}, p.function? id = some i → p.arity id ≤ maxArity)
    (hprim : ∀ op args, invoke (.intrinsic op) args = runIntrinsic op args)
    (hcalls : CallsFollow p number call invoke) {func arg mfunc marg}
    (hfunc : Represents p number func mfunc) (harg : Represents p number arg marg) :
    Follows (Represents p number) (Reference.apply number (·.arity p.module) call func arg)
      (apply invoke mfunc marg) := by
  cases hfunc with
  | int n => exact .throw _ _
  | str text => exact .throw _ _
  | con name => exact .throw _ _
  | @prim op args margs hlen hargs =>
    have hall := List.rel_append hargs (.cons harg .nil)
    simp only [Reference.apply, apply, ← hall.length_eq]
    by_cases hmore : (args ++ [arg]).length < op.arity
    · rw [if_pos hmore, if_pos hmore]
      exact .pure (.prim hmore hall)
    · have hlast : (args ++ [arg]).length = op.arity := by
        rw [List.length_append, List.length_singleton] at hmore ⊢
        omega
      rw [if_neg hmore, if_neg hmore, if_neg (not_or.mpr ⟨Nat.ne_of_gt (Machine.arity_pos op),
        Nat.not_lt.mpr (Machine.arity_le_maxArity op)⟩), hprim]
      exact callPrim_follows hunit hlast hall
  | @closure c params args captured margs mcaptured function hkind hfunction hlookup hcaptured hlen
      hargs =>
      have hall := List.rel_append hargs (.cons harg .nil)
      -- the closure of the run has the captured values in front, and they count among its
      -- parameters; so in both as many arguments are missing
      have hlength : (mcaptured ++ margs ++ [marg]).length =
          (p.captures.of c.lambda).length + (args ++ [arg]).length := by
        rw [List.append_assoc, List.length_append, ← hall.length_eq, ← hcaptured.length_eq,
          ← hlookup.length_eq]
      have harity : p.arity c.lambda = (p.captures.of c.lambda).length + c.arity p.module := rfl
      simp only [Reference.apply, apply, hlength]
      by_cases hmore : (args ++ [arg]).length < c.arity p.module
      · rw [if_pos hmore, if_pos (harity ▸ Nat.add_lt_add_left hmore _), List.append_assoc]
        exact .pure (.closure hkind hfunction hlookup hcaptured hmore hall)
      · have hlast : (args ++ [arg]).length = c.arity p.module := by
          rw [List.length_append, List.length_singleton] at hmore ⊢
          omega
        have hroom : ¬(p.arity c.lambda = 0 ∨ maxArity < p.arity c.lambda) := by
          have := hmax hfunction
          omega
        rw [if_neg hmore, if_neg (by omega), if_neg hroom, List.append_assoc]
        exact hcalls hkind hfunction hlookup hcaptured hlast hall

/-- Applying a closure to captured parameters never calls it. -/
theorem captures_apply (menv : NodeId → Value) (callee : Callee) {arity : Nat}
    (captures : List NodeId) (args : List Value) (h : args.length + captures.length < arity) :
    captures.foldlM (fun func id => apply invoke func (menv id)) (.closure callee arity args) =
      pure (.closure callee arity (args ++ captures.map menv)) := by
  induction captures generalizing args with
  | nil => simp
  | cons id rest ih =>
    rw [List.length_cons] at h
    have hmore : (args ++ [menv id]).length < arity := by
      rw [List.length_append, List.length_singleton]
      omega
    have hid : apply invoke (.closure callee arity args) (menv id) =
        pure (.closure callee arity (args ++ [menv id])) := if_pos hmore
    have hrest : (args ++ [menv id]).length + rest.length < arity := by
      rw [List.length_append, List.length_singleton]
      omega
    rw [List.foldlM_cons, hid, pure_bind, ih _ hrest, List.append_assoc]
    rfl

/-- The closure of a lambda holds what it captures. -/
theorem closure_eval (shaped : p.module.Shaped) (hkind : p.module.kind id = .lambda params body)
    (function : FunctionId) (globals : Array GlobalSlot) (menv : NodeId → Value) :
    (Term.closure function (p.arity id) (p.captures.of id)).eval number globals invoke menv =
      pure (.closure (.function function) (p.arity id) ((p.captures.of id).map menv)) := by
  -- a lambda has a parameter, so its captures alone never make a call
  have hroom : ([] : List Value).length + (p.captures.of id).length < p.arity id := by
    have := List.length_pos_iff.mpr (shaped.params_ne_nil hkind)
    rw [Plan.arity, List.length_nil]
    omega
  rw [Term.eval, captures_apply menv _ _ _ hroom, List.nil_append]

/-! ## Nodes and their terms -/

theorem get_follows (henv : Provided p number scope env menv) (hid : id ∈ scope) :
    Follows (Represents p number) (env.get p.module id) (pure (menv id)) := by
  obtain ⟨v, hv, hrep⟩ := henv id hid
  unfold Core.Env.get
  rw [hv]
  exact .pure hrep

/-- A lambda over an environment is represented by its closure with the captured parameters. -/
theorem closure_represents (henv : Provided p number scope env menv) {function : FunctionId}
    (hkind : p.module.kind id = .lambda params body) (hfunction : p.function? id = some function)
    (hparams : p.module.params id ≠ []) (hscope : p.captures.of id ⊆ scope) :
    Represents p number (.closure ⟨id, body, env⟩ [])
      (.closure (.function function) (p.arity id) ((p.captures.of id).map menv)) := by
  have hvalues : ∀ {ids}, ids ⊆ scope → ∃ values,
      List.Forall₂ (fun id v => env.lookup id = some v) ids values ∧
        List.Forall₂ (Represents p number) values (ids.map menv) := by
    intro ids hids
    induction ids with
    | nil => exact ⟨[], .nil, .nil⟩
    | cons id rest ih =>
      obtain ⟨hid, hrest⟩ := List.cons_subset.mp hids
      obtain ⟨v, hv, hrep⟩ := henv id hid
      obtain ⟨values, hlookup, hreps⟩ := ih hrest
      exact ⟨v :: values, .cons hv hlookup, .cons hrep hreps⟩
  obtain ⟨captured, hlookup, hcaptured⟩ := hvalues hscope
  rw [← List.append_nil ((p.captures.of id).map menv)]
  exact .closure hkind hfunction hlookup hcaptured (List.length_pos_iff.mpr hparams) .nil

end

section

variable {p : Plan} {number : String → Nat} {entry : NodeId} {o : Outline}

/-- What a simulation rests on: the outline covers the plan, and no routine has more parameters than
a call can have arguments. -/
structure Outline.Runs (o : Outline) (p : Plan) (number : String → Nat) (entry : NodeId) :
    Prop where
  covers : o.Covers p entry
  shaped : p.module.Shaped
  settled : p.Settled
  unit : number "()" = 0
  arity_le : ∀ r ∈ o.routines, r.scope.length ≤ maxArity

namespace Outline.Runs

variable {id params body : NodeId} {scope : List NodeId} {env : Env} {menv : NodeId → Value}
  {invoke : Callee → List Value → RunM Value} {fuel free : Nat} {t : Term}

theorem arity_le_maxArity (h : o.Runs p number entry) {i : FunctionId}
    (hi : p.function? id = some i) : p.arity id ≤ maxArity := by
  obtain ⟨r, hr, hof⟩ := h.covers.routine hi
  rw [← hof.scope_length]
  exact h.arity_le r (List.mem_of_getElem? hr)

/-- The closure of a lambda in the graph is the closure that its term makes. -/
theorem closure_follows (h : o.Runs p number entry) (henv : Provided p number scope env menv)
    {function : FunctionId} (hkind : p.module.kind id = .lambda params body)
    (hfunction : p.function? id = some function) (hscope : p.captures.of id ⊆ scope) :
    Follows (Represents p number) (pure (.closure ⟨id, body, env⟩ []))
      ((Term.closure function (p.arity id) (p.captures.of id)).eval number o.globals invoke
        menv) := by
  rw [closure_eval h.shaped hkind]
  exact .pure (closure_represents henv hkind hfunction (h.shaped.params_ne_nil hkind) hscope)

theorem global_follows (h : o.Runs p number entry) (henv : Provided p number scope env menv)
    {slot : Nat} (hkind : p.module.kind id = .lambda params body) (hslot : p.slot? id = some slot) :
    Follows (Represents p number) (pure (.closure ⟨id, body, env⟩ []))
      ((Term.global slot).eval number o.globals invoke menv) := by
  obtain ⟨g, hg, hfunction, harity⟩ := h.covers.slot hslot
  have hnone := h.settled.captures_of_slot hslot
  have hrep := closure_represents henv hkind hfunction (h.shaped.params_ne_nil hkind)
    (hnone ▸ List.nil_subset scope)
  have heq : p.arity id = g.arity := by
    rw [harity, Plan.arity, hnone, List.length_nil, Nat.zero_add]
  rw [hnone, heq] at hrep
  simp only [Term.eval, hg]
  exact .pure hrep

/-- The call of a routine ends as the body of its lambda does, if bodies do. -/
theorem calls_follow (h : o.Runs p number entry) (limit free : Nat)
    {eval : Env → NodeId → EvalM Core.Value}
    (hbody : ∀ {scope env menv id t},
      Expands p scope id t → Provided p number scope env menv →
      Follows (Represents p number) (eval env id)
        (t.eval number o.globals (o.call number limit free) menv)) :
    CallsFollow p number (fun c args => eval (c.bind p.module args) c.body)
      (o.call number limit (free + 1)) := by
  intro c params args captured margs mcaptured function hkind hfunction hlookup hcaptured hlen hargs
  obtain ⟨r, hr, hof⟩ := h.covers.routine hfunction
  obtain ⟨params', body', hkind', hexpands⟩ := hof.body
  obtain rfl : c.body = body' := by
    rw [hkind] at hkind'
    cases hkind'
    rfl
  have hscope := hof.scope_eq
  have hlength : (mcaptured ++ margs).length = r.scope.length := by
    rw [hscope, List.length_append, List.length_append, ← hcaptured.length_eq, ← hlookup.length_eq,
      ← hargs.length_eq, hlen]
    rfl
  simp only [call, called, hr, hlength, if_true, pure_bind]
  refine .modify_bind (fun _ => rfl) (hbody hexpands ?_)
  rw [hscope]
  exact provided_call hlookup hcaptured hlen hargs

/-- A use by name ends as the node it leads to does, if the terms of nodes do. -/
theorem refers_follows (h : o.Runs p number entry) (limit : Nat) {target : NodeId}
    (hexpands : ∀ {id t}, Expands p scope id t →
      Follows (Represents p number) (Core.eval p.module number fuel free env id)
        (t.eval number o.globals (o.call number limit free) menv)) (ht : Refers p scope target t)
    (henv : Provided p number scope env menv) :
    Follows (Represents p number) (Core.eval p.module number fuel free env target)
      (t.eval number o.globals (o.call number limit free) menv) := by
  cases fuel with
  | zero => exact .unfinished _ _
  | succ fuel =>
    cases ht with
    | param hkind hscope => exact hexpands (.param hkind hscope)
    | prim hkind => exact hexpands (.prim hkind)
    | closure hkind hfunction hscope => exact hexpands (.closure hkind hfunction hscope)
    | global hkind hslot =>
      simp only [Core.eval, hkind]
      exact h.global_follows henv hkind hslot
    | inlined htarget =>
      rw [Term.eval]
      exact hexpands htarget

/-- Wherever the evaluation of a node finishes, its term ends in the same way. -/
theorem eval_follows (h : o.Runs p number entry) (limit : Nat) (ht : Expands p scope id t)
    (henv : Provided p number scope env menv) :
    Follows (Represents p number) (Core.eval p.module number fuel free env id)
      (t.eval number o.globals (o.call number limit free) menv) := by
  -- by the fuel of the evaluation; the run has no such bound, only the limit on nested calls
  induction fuel generalizing free scope env menv id t with
  | zero => exact .unfinished _ _
  | succ fuel ih =>
    have hcalls : CallsFollow p number
        (Reference.within free fun free c args =>
          Core.eval p.module number fuel free (c.bind p.module args) c.body)
        (o.call number limit free) := by
      cases free with
      | zero => exact fun _ _ _ _ _ _ => .unfinished _ _
      | succ free => exact h.calls_follow limit free ih
    cases ht with
    | int hkind =>
      simp only [Core.eval, hkind]
      exact .pure (.int _)
    | str hkind =>
      simp only [Core.eval, hkind]
      exact .pure (.str _)
    | con hkind =>
      simp only [Core.eval, hkind]
      exact .pure (represents_constructor _)
    | param hkind hscope =>
      simp only [Core.eval, hkind]
      exact get_follows henv hscope
    | prim hkind =>
      simp only [Core.eval, hkind]
      exact .pure (.prim (Machine.arity_pos _) .nil)
    | closure hkind hfunction hscope =>
      simp only [Core.eval, hkind]
      exact h.closure_follows henv hkind hfunction hscope
    | reference hkind htarget =>
      simp only [Core.eval, hkind]
      exact h.refers_follows limit (fun ht => ih ht henv) htarget henv
    | app hkind hfunc harg =>
      simp only [Core.eval, hkind]
      refine (ih hfunc henv).bind fun f mf hf => (ih harg henv).bind fun a ma ha => ?_
      exact apply_follows h.unit h.arity_le_maxArity (call_intrinsic number o limit free) hcalls
        hf ha
    | cond hkind htest htrue hfalse =>
      simp only [Core.eval, hkind]
      refine (ih htest henv).bind fun v w hvw => ?_
      refine (condition_follows hvw).bind fun b b' hb => ?_
      subst hb
      split
      · exact ih htrue henv
      · exact ih hfalse henv

/-- Wherever the evaluation of the entry finishes, running the outline ends in the same way. -/
theorem eval_entry_follows (h : o.Runs p number entry) (limit fuel : Nat) :
    Follows (Represents p number) (Core.eval p.module number fuel limit [] entry)
      (o.eval number limit) := by
  have henv : Provided p number [] [] (bound [] []) := nofun
  exact h.refers_follows limit (fun ht => h.eval_follows limit ht henv) h.covers.main henv

/-- Running the outline gives the value of the entry, and fails as its evaluation does. -/
theorem run_eq (h : o.Runs p number entry) (limit fuel : Nat) :
    (∀ v out, Core.eval p.module number fuel limit [] entry "" = some (.ok v, out) →
      ∃ w, o.run number limit = .ok ⟨out, w⟩ ∧ Represents p number v w) ∧
    ∀ e out, Core.eval p.module number fuel limit [] entry "" = some (.error e, out) →
      o.run number limit = .error e := by
  have hfollows := h.eval_entry_follows limit fuel .start
  constructor
  · intro v out heval
    have hstart : Core.eval p.module number fuel limit [] entry Machine.State.start.output = _ :=
      heval
    rw [hstart] at hfollows
    obtain ⟨w, st, hrun, rfl, hrep⟩ := hfollows
    refine ⟨w, ?_, hrep⟩
    simp only [run, ExceptT.run, StateT.run, hrun]
  · intro e out heval
    have hstart : Core.eval p.module number fuel limit [] entry Machine.State.start.output = _ :=
      heval
    rw [hstart] at hfollows
    obtain ⟨st, hrun, _⟩ := hfollows
    simp only [run, ExceptT.run, StateT.run, hrun]

end Outline.Runs

end

end Lamina.Flat
