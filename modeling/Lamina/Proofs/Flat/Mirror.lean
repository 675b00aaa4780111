import Lamina.Proofs.Flat.Simulation
import Lamina.Proofs.Flat.Twins

/-!
# Twins run alike

The programs of twins have their functions under other numbers, and their parameters in other places.
So a value of the one run is mirrored by a value of the other (`Mirrors`): closures are of lambdas
that stand for one another, and hold the same under each captured parameter. Terms and calls take
what is mirrored to what is mirrored (`Mirrored.expands_mirror`, `Mirrored.call_alike`), and nothing
else can be seen of a run (`Mirrored.run`).
-/

namespace Lamina.Flat

open Lamina.Core (NodeId NodeKind Module Matching Twins)
open Lamina.Machine (Value RunM Alike apply runIntrinsic callIntrinsic)
open Outline (bound bound_append)

/-! ## Bound parameters -/

theorem bound_map {params} (env : NodeId → Value) {x} (hx : x ∈ params) :
    bound params (params.map env) x = env x := by
  have hzip : params.zip (params.map env) = params.map fun y => (y, env y) := by
    simpa using List.zip_map' (f := id) (g := env) (l := params)
  unfold bound
  rw [hzip]
  cases hlookup : ((params.map fun y => (y, env y)).reverse).lookup x with
  | none =>
    rw [lookup_eq_none_iff_not_mem] at hlookup
    exact absurd (by simpa using hx) hlookup
  | some v =>
    obtain ⟨y, _, heq⟩ := List.mem_map.mp (List.mem_reverse.mp (mem_of_lookup hlookup))
    cases heq
    rfl

/-! ## Values -/

/-- Lambdas that stand for one another, their functions, and a value for each parameter that they
capture. -/
structure Closures (R : NodeId → NodeId → Prop) (p p' : Plan) (id id' : NodeId)
    (function function' : FunctionId) (captured captured' : List Value) : Prop where
  twins : R id id'
  function : p.function? id = some function
  function' : p'.function? id' = some function'
  length : captured.length = (p.captures.of id).length
  length' : captured'.length = (p'.captures.of id').length

/-- How the values of a run are mirrored in the run of a twin: what is captured is mirrored
parameter by parameter, and not in the order in which a closure holds it. -/
inductive Mirrors (R : NodeId → NodeId → Prop) (p p' : Plan) : Value → Value → Prop
  | int (n : Int64) : Mirrors R p p' (.int n) (.int n)
  | str (text : String) : Mirrors R p p' (.str text) (.str text)
  | con (tag : Nat) : Mirrors R p p' (.con tag []) (.con tag [])
  | prim {op args args'} (hargs : List.Forall₂ (Mirrors R p p') args args') :
      Mirrors R p p' (.closure (.intrinsic op) op.arity args)
        (.closure (.intrinsic op) op.arity args')
  | closure {id id' function function' captured captured' args args'}
      (h : Closures R p p' id id' function function' captured captured')
      (hcaptured : ∀ x ∈ p.captures.of id, ∀ x' ∈ p'.captures.of id', R x x' →
        Mirrors R p p' (bound (p.captures.of id) captured x)
          (bound (p'.captures.of id') captured' x'))
      (hargs : List.Forall₂ (Mirrors R p p') args args') :
      Mirrors R p p' (.closure (.function function) (p.arity id) (captured ++ args))
        (.closure (.function function') (p'.arity id') (captured' ++ args'))

/-- Parameters in scope that stand for one another have values that mirror one another. -/
def MirrorsIn (R : NodeId → NodeId → Prop) (p p' : Plan) (scope scope' : List NodeId)
    (env env' : NodeId → Value) : Prop :=
  ∀ x ∈ scope, ∀ x' ∈ scope', R x x' → Mirrors R p p' (env x) (env' x')

section

variable {R : NodeId → NodeId → Prop} {p p' : Plan} {v w : Value}

/-- An intrinsic sees the same of a value and of its mirror. -/
theorem Mirrors.similar (h : Mirrors R p p' v w) : Value.Similar v w := by
  cases h with
  | int n => exact .int n
  | str text => exact .str text
  | con tag => exact .con _ _ _
  | prim _ => exact .closure _ _ _ _ _ _
  | closure _ _ _ => exact .closure _ _ _ _ _ _

/-- A value is shown as its mirror is. -/
theorem Mirrors.transcript_eq (h : Mirrors R p p' v w) (output : String) :
    Machine.Execution.transcript ⟨output, v⟩ = Machine.Execution.transcript ⟨output, w⟩ := by
  have hunit : v.isUnit = w.isUnit := by
    cases h <;> rfl
  unfold Machine.Execution.transcript
  simp only [hunit, h.similar.text_eq]

theorem mirrors_plain (h : v.Plain) : Mirrors R p p' v v := by
  cases v with
  | int n => exact .int n
  | str text => exact .str text
  | con tag fields =>
    rw [show Value.con tag fields = .unit from h]
    exact .con 0
  | closure callee arity args => cases h

theorem runIntrinsic_alike (op : Intrinsic) {args args' : List Value}
    (hargs : List.Forall₂ (Mirrors R p p') args args') :
    Alike (Mirrors R p p') (runIntrinsic op args) (runIntrinsic op args') := by
  unfold runIntrinsic
  rw [Machine.callIntrinsic_similar op (hargs.imp fun _ _ h => h.similar)]
  cases hcall : callIntrinsic op args' with
  | error e => exact .throw _ e
  | ok answer =>
    have hlen : args'.length = op.arity := by
      by_contra hne
      unfold callIntrinsic at hcall
      rw [if_neg hne] at hcall
      cases hcall
    have hends := Machine.callIntrinsic_ends hlen
    rw [hcall] at hends
    exact .bind (.refl _) fun _ _ _ => .pure (mirrors_plain hends)

theorem condition_alike (h : Mirrors R p p' v w) :
    Alike Eq (Machine.condition v) (Machine.condition w) := by
  have heq : Machine.condition v = Machine.condition w := by
    cases h.similar <;> rfl
  rw [heq]
  exact .refl _

end

/-! ## Terms -/

/-- What the term of a node is, by the contents of the node. -/
def Expansion (p : Plan) (scope : List NodeId) (id : NodeId) (t : Term) : NodeKind → Prop
  | .literal (.int value) => t = .int value
  | .literal (.str text) => t = .str text
  | .constructor name => t = .con name
  | .placeholder => id ∈ scope ∧ t = .param id
  | .intrinsic op => t = .prim op
  | .lambda _ _ => ∃ function, p.function? id = some function ∧ p.captures.of id ⊆ scope ∧
      t = .closure function (p.arity id) (p.captures.of id)
  | .indirection target => Refers p scope target t
  | .application func arg => ∃ f a, Expands p scope func f ∧ Expands p scope arg a ∧ t = .app f a
  | .conditional test onTrue onFalse => ∃ c y n, Expands p scope test c ∧
      Expands p scope onTrue y ∧ Expands p scope onFalse n ∧ t = .cond c y n
  | .noForm => False

theorem Expands.expansion {p scope id t} (h : Expands p scope id t) {kind : NodeKind}
    (hkind : p.module.kind id = kind) : Expansion p scope id t kind := by
  subst hkind
  cases h with
  | int hkind | str hkind | con hkind | prim hkind =>
    rw [hkind]
    exact rfl
  | param hkind hscope =>
    rw [hkind]
    exact ⟨hscope, rfl⟩
  | closure hkind hfunction hscope =>
    rw [hkind]
    exact ⟨_, hfunction, hscope, rfl⟩
  | reference hkind htarget =>
    rw [hkind]
    exact htarget
  | app hkind hfunc harg =>
    rw [hkind]
    exact ⟨_, _, hfunc, harg, rfl⟩
  | cond hkind htest htrue hfalse =>
    rw [hkind]
    exact ⟨_, _, _, htest, htrue, hfalse, rfl⟩

section

variable {p : Plan} {entry target : NodeId} {o : Outline}

/-- Terms that nothing in an outline can tell apart. -/
def Term.Same (o : Outline) (t t' : Term) : Prop :=
  t.table = t'.table ∧ ∀ number invoke env,
    t.eval number o.globals invoke env = t'.eval number o.globals invoke env

/-- A slot holds the closure of its function, which captures nothing. -/
theorem global_eval (hsettled : p.Settled) (hcovers : o.Covers p entry) {slot : Nat}
    (hslot : p.slot? target = some slot) :
    ∃ function, p.function? target = some function ∧ p.captures.of target = [] ∧
      (Term.global slot).Same o (.closure function (p.arity target) (p.captures.of target)) := by
  obtain ⟨g, hg, hfunction, harity⟩ := hcovers.slot hslot
  have hnone := hsettled.captures_of_slot hslot
  refine ⟨g.function, hfunction, hnone, rfl, fun number invoke env => ?_⟩
  rw [Term.eval, hg, Term.eval, hnone, Plan.arity, hnone, List.length_nil, Nat.zero_add, ← harity]
  rfl

/-- A use by name is like the node itself. -/
theorem Refers.expands (hsettled : p.Settled) (hcovers : o.Covers p entry) {scope t}
    (h : Refers p scope target t) : ∃ value, Expands p scope target value ∧ t.Same o value := by
  cases h with
  | param hkind hscope => exact ⟨_, .param hkind hscope, rfl, fun _ _ _ => rfl⟩
  | prim hkind => exact ⟨_, .prim hkind, rfl, fun _ _ _ => rfl⟩
  | closure hkind hfunction hscope =>
    exact ⟨_, .closure hkind hfunction hscope, rfl, fun _ _ _ => rfl⟩
  | inlined htarget => exact ⟨_, htarget, funext fun _ => rfl, fun _ _ _ => rfl⟩
  | global hkind hslot =>
    obtain ⟨function, hfunction, hnone, hsame⟩ := global_eval hsettled hcovers hslot
    exact ⟨_, .closure hkind hfunction (hnone ▸ List.nil_subset scope), hsame⟩

theorem Refers.operator (hsettled : p.Settled) (hcovers : o.Covers p entry) {scope t}
    (h : Refers p scope target t) {op : Intrinsic} (hop : p.module.kind target = .intrinsic op) :
    t.Same o (.prim op) := by
  obtain ⟨value, hvalue, hsame⟩ := h.expands hsettled hcovers
  cases hvalue.expansion hop
  exact hsame

end

/-! ## Programs -/

/-- Outlines of twins whose constructors are in `C`. -/
structure Mirrored (C : String → Prop) (R : NodeId → NodeId → Prop) (p p' : Plan)
    (entry entry' : NodeId) (o o' : Outline) : Prop where
  module : Twins C R p.module p'.module
  shaped : p.module.Shaped
  shaped' : p'.module.Shaped
  captures : ∀ {id id' function function'}, R id id' →
    p.function? id = some function → p'.function? id' = some function' →
    (p.captures.of id).length = (p'.captures.of id').length
  settled : p.Settled
  settled' : p'.Settled
  covers : o.Covers p entry
  covers' : o'.Covers p' entry'
  entry : R entry entry'

/-- Calls of functions that stand for one another, with values that mirror one another, are
alike. -/
structure CallsMirror (R : NodeId → NodeId → Prop) (p p' : Plan)
    (invoke invoke' : Callee → List Value → RunM Value) : Prop where
  prim : ∀ op args, invoke (.intrinsic op) args = runIntrinsic op args
  prim' : ∀ op args, invoke' (.intrinsic op) args = runIntrinsic op args
  function : ∀ {id id' function function' captured captured' args args'},
    Closures R p p' id id' function function' captured captured' →
    MirrorsIn R p p' (p.captures.of id) (p'.captures.of id') (bound (p.captures.of id) captured)
      (bound (p'.captures.of id') captured') →
    List.Forall₂ (Mirrors R p p') args args' →
    Alike (Mirrors R p p') (invoke (.function function) (captured ++ args))
      (invoke' (.function function') (captured' ++ args'))

/-- Terms that have the same constructors in the same order and give values that mirror one another,
wherever their parameters and the calls they make do. -/
structure TermsMirror (C : String → Prop) (R : NodeId → NodeId → Prop) (p p' : Plan)
    (o o' : Outline) (scope scope' : List NodeId) (t t' : Term) : Prop where
  table : t.table = t'.table
  eval : ∀ {number number' invoke invoke' env env'},
    (∀ name, C name → conValue number name = conValue number' name) →
    CallsMirror R p p' invoke invoke' → MirrorsIn R p p' scope scope' env env' →
    Alike (Mirrors R p p') (t.eval number o.globals invoke env)
      (t'.eval number' o'.globals invoke' env')

namespace TermsMirror

variable {C : String → Prop} {R : NodeId → NodeId → Prop} {p p' : Plan} {o o' : Outline}
  {scope scope' : List NodeId} {t t' value : Term}

theorem same_left (h : TermsMirror C R p p' o o' scope scope' value t') (hsame : t.Same o value) :
    TermsMirror C R p p' o o' scope scope' t t' := by
  refine ⟨hsame.1.trans h.table, fun hcon hcalls henv => ?_⟩
  rw [hsame.2]
  exact h.eval hcon hcalls henv

theorem same_right (h : TermsMirror C R p p' o o' scope scope' t value) (hsame : t'.Same o' value) :
    TermsMirror C R p p' o o' scope scope' t t' := by
  refine ⟨h.table.trans hsame.1.symm, fun hcon hcalls henv => ?_⟩
  rw [hsame.2]
  exact h.eval hcon hcalls henv

end TermsMirror

namespace Mirrored

variable {C : String → Prop} {R : NodeId → NodeId → Prop} {p p' : Plan}
  {entry entry' id id' : NodeId} {o o' : Outline}
  {number number' : String → Nat} {invoke invoke' : Callee → List Value → RunM Value}
  {function function' : FunctionId} {captured captured' args args' : List Value}

/-- Functions that stand for one another take as many arguments. -/
theorem arity_eq (h : Mirrored C R p p' entry entry' o o') (hid : R id id')
    (hfunction : p.function? id = some function) (hfunction' : p'.function? id' = some function') :
    p.arity id = p'.arity id' := by
  rw [Plan.arity, Plan.arity, h.captures hid hfunction hfunction',
    (params_twins h.module hid).length_eq]

theorem length_eq (h : Mirrored C R p p' entry entry' o o')
    (hclosures : Closures R p p' id id' function function' captured captured')
    (hargs : List.Forall₂ (Mirrors R p p') args args') :
    (captured ++ args).length = (captured' ++ args').length := by
  rw [List.length_append, List.length_append, hclosures.length, hclosures.length',
    hargs.length_eq, h.captures hclosures.twins hclosures.function hclosures.function']

theorem apply_alike (h : Mirrored C R p p' entry entry' o o')
    (hcalls : CallsMirror R p p' invoke invoke') {func func' arg arg' : Value}
    (hfunc : Mirrors R p p' func func') (harg : Mirrors R p p' arg arg') :
    Alike (Mirrors R p p') (apply invoke func arg) (apply invoke' func' arg') := by
  cases hfunc with
  | int n => exact .throw _ _
  | str text => exact .throw _ _
  | con tag => exact .throw _ _
  | prim hargs =>
    have hall := List.rel_append hargs (.cons harg .nil)
    simp only [apply, hall.length_eq]
    split
    · exact .pure (.prim hall)
    · split
      · exact .throw _ _
      · rw [hcalls.prim, hcalls.prim']
        exact runIntrinsic_alike _ hall
  | @closure id id' function function' captured captured' args args' hclosures hcaptured hargs =>
    have hall := List.rel_append hargs (.cons harg .nil)
    have harity := h.arity_eq hclosures.twins hclosures.function hclosures.function'
    have hlength := h.length_eq hclosures hall
    simp only [apply, List.append_assoc, hlength, harity]
    split
    · rw [← harity]
      nth_rewrite 2 [harity]
      exact .pure (.closure hclosures hcaptured hall)
    · split
      · exact .throw _ _
      · exact hcalls.function hclosures hcaptured hall

/-! ## Calls and terms -/

/-- In a call, parameters that stand for one another have values that mirror one another. -/
theorem bound_mirrors (h : Mirrored C R p p' entry entry' o o')
    (hclosures : Closures R p p' id id' function function' captured captured')
    (hcaptured : MirrorsIn R p p' (p.captures.of id) (p'.captures.of id')
      (bound (p.captures.of id) captured) (bound (p'.captures.of id') captured'))
    (hargs : List.Forall₂ (Mirrors R p p') args args')
    (hlen : args.length = (p.module.params id).length) :
    MirrorsIn R p p' (p.captures.of id ++ p.module.params id)
      (p'.captures.of id' ++ p'.module.params id')
      (bound (p.captures.of id ++ p.module.params id) (captured ++ args))
      (bound (p'.captures.of id' ++ p'.module.params id') (captured' ++ args')) := by
  have hparams := params_twins h.module hclosures.twins
  have hlen' : args'.length = (p'.module.params id').length := by
    rw [← hargs.length_eq, hlen, hparams.length_eq]
  intro x hx x' hx' hrel
  have hown := List.rel_mem h.module.unique hrel hparams
  rw [bound_append hclosures.length hlen, bound_append hclosures.length' hlen']
  by_cases hparam : x ∈ p.module.params id
  · rw [if_pos hparam, if_pos (hown.mp hparam)]
    have hlookup := lookup_rel h.module.unique
      (List.rel_reverse (forall₂_zip_zip hparams hargs)) hrel
    unfold bound
    generalize hfound : ((p.module.params id).zip args).reverse.lookup x = found at hlookup
    generalize ((p'.module.params id').zip args').reverse.lookup x' = found' at hlookup
    cases hlookup with
    | some hvalue => exact hvalue
    | none =>
      rw [lookup_eq_none_iff_not_mem, List.map_reverse, List.mem_reverse,
        List.map_fst_zip (Nat.le_of_eq hlen.symm)] at hfound
      exact absurd hparam hfound
  · have hparam' : x' ∉ p'.module.params id' := mt hown.mpr hparam
    rw [if_neg hparam, if_neg hparam']
    exact hcaptured x ((List.mem_append.mp hx).resolve_right hparam) x'
      ((List.mem_append.mp hx').resolve_right hparam') hrel

section

variable {scope scope' : List NodeId} {id id' : NodeId} {t' : Term}

theorem prims_mirror (op : Intrinsic) :
    TermsMirror C R p p' o o' scope scope' (.prim op) (.prim op) :=
  ⟨rfl, fun _ _ _ => .pure (.prim .nil)⟩

theorem param_mirrors (h : Mirrored C R p p' entry entry' o o')
    (hkind : p.module.kind id = .placeholder) (hscope : id ∈ scope) (hid : R id id')
    (h' : Expands p' scope' id' t') : TermsMirror C R p p' o o' scope scope' (.param id) t' := by
  obtain ⟨hscope', rfl⟩ := h'.expansion (placeholder_twins h.module hid hkind)
  exact ⟨rfl, fun _ _ henv => .pure (henv id hscope id' hscope' hid)⟩

theorem prim_mirrors (h : Mirrored C R p p' entry entry' o o') {op : Intrinsic}
    (hkind : p.module.kind id = .intrinsic op) (hid : R id id') (h' : Expands p' scope' id' t') :
    TermsMirror C R p p' o o' scope scope' (.prim op) t' := by
  obtain ⟨_, hkind', hmatching⟩ := kind_twins h.module hid hkind
  cases hmatching with
  | intrinsic =>
    cases h'.expansion hkind'
    exact prims_mirror op
  | operator hop =>
    have hrefers : Refers p' scope' _ t' := h'.expansion hkind'
    exact (prims_mirror op).same_right (hrefers.operator h.settled' h.covers' hop)

/-- The closures that terms make of lambdas mirror one another. -/
theorem closure_mirrors (h : Mirrored C R p p' entry entry' o o') {params body : NodeId}
    (hkind : p.module.kind id = .lambda params body) (hfunction : p.function? id = some function)
    (hscope : p.captures.of id ⊆ scope) (hid : R id id') (h' : Expands p' scope' id' t') :
    TermsMirror C R p p' o o' scope scope' (.closure function (p.arity id) (p.captures.of id))
      t' := by
  obtain ⟨params', body', hkind', _⟩ := lambda_twins h.module hid hkind
  obtain ⟨function', hfunction', hscope', rfl⟩ := h'.expansion hkind'
  refine ⟨rfl, @fun _ _ _ _ env env' _ _ henv => ?_⟩
  rw [closure_eval h.shaped hkind, closure_eval h.shaped' hkind']
  have hclosures : Closures R p p' id id' function function' ((p.captures.of id).map env)
      ((p'.captures.of id').map env') := ⟨hid, hfunction, hfunction', by simp, by simp⟩
  have hmirrors := Mirrors.closure hclosures (fun x hx x' hx' hrel => by
    rw [bound_map env hx, bound_map env' hx']
    exact henv x (hscope hx) x' (hscope' hx') hrel) .nil
  rw [List.append_nil, List.append_nil] at hmirrors
  exact .pure hmirrors

end

theorem constructor_mirrors (number : String → Nat) (name : String) :
    Mirrors R p p' (conValue number name) (conValue number name) := by
  unfold conValue
  split
  · exact .int 1
  · split
    · exact .int 0
    · exact .con _

section

variable {scope scope' : List NodeId}

mutual

/-- The terms of nodes that stand for one another mirror one another. -/
theorem expands_mirror (h : Mirrored C R p p' entry entry' o o') {id id' t t'} (hid : R id id')
    (h' : Expands p' scope' id' t') :
    Expands p scope id t → TermsMirror C R p p' o o' scope scope' t t'
  | .int hkind => by
    obtain ⟨_, hkind', ⟨⟩⟩ := kind_twins h.module hid hkind
    cases h'.expansion hkind'
    exact ⟨rfl, fun _ _ _ => .pure (.int _)⟩
  | .str hkind => by
    obtain ⟨_, hkind', ⟨⟩⟩ := kind_twins h.module hid hkind
    cases h'.expansion hkind'
    exact ⟨rfl, fun _ _ _ => .pure (.str _)⟩
  | .con hkind => by
    obtain ⟨_, hkind', hmatching⟩ := kind_twins h.module hid hkind
    cases hmatching with
    | constructor hname =>
      cases h'.expansion hkind'
      refine ⟨rfl, fun hcon _ _ => ?_⟩
      simp only [Term.eval, hcon _ hname]
      exact .pure (constructor_mirrors _ _)
  | .param hkind hscope => h.param_mirrors hkind hscope hid h'
  | .prim hkind => h.prim_mirrors hkind hid h'
  | .closure hkind hfunction hscope => h.closure_mirrors hkind hfunction hscope hid h'
  | .reference hkind htarget => by
    rcases indirection_twins h.module hid hkind with ⟨target', hkind', hrel⟩ | ⟨op, hop, hkind'⟩
    · have hrefers' : Refers p' scope' target' t' := h'.expansion hkind'
      obtain ⟨value', hvalue', hsame⟩ := hrefers'.expands h.settled' h.covers'
      exact (refers_mirror h hrel hvalue' htarget).same_right hsame
    · cases h'.expansion hkind'
      exact (prims_mirror op).same_left (htarget.operator h.settled h.covers hop)
  | .app hkind hfunc harg => by
    obtain ⟨_, hkind', hmatching⟩ := kind_twins h.module hid hkind
    cases hmatching with
    | application hrel hrel' =>
      obtain ⟨f', a', hfunc', harg', rfl⟩ := h'.expansion hkind'
      have hf := expands_mirror h hrel hfunc' hfunc
      have ha := expands_mirror h hrel' harg' harg
      refine ⟨funext fun names => ?_, fun hcon hcalls henv => ?_⟩
      · simp only [Term.table, hf.table, ha.table]
      · exact (hf.eval hcon hcalls henv).bind fun _ _ hf =>
          (ha.eval hcon hcalls henv).bind fun _ _ ha => h.apply_alike hcalls hf ha
  | .cond hkind htest htrue hfalse => by
    obtain ⟨_, hkind', hmatching⟩ := kind_twins h.module hid hkind
    cases hmatching with
    | conditional hrel hrel' hrel'' =>
      obtain ⟨c', y', n', htest', htrue', hfalse', rfl⟩ := h'.expansion hkind'
      have hc := expands_mirror h hrel htest' htest
      have hy := expands_mirror h hrel' htrue' htrue
      have hn := expands_mirror h hrel'' hfalse' hfalse
      refine ⟨funext fun names => ?_, fun hcon hcalls henv => ?_⟩
      · simp only [Term.table, hc.table, hy.table, hn.table]
      · refine (hc.eval hcon hcalls henv).bind fun _ _ hc => (condition_alike hc).bind fun b b' hb => ?_
        subst hb
        split
        · exact hy.eval hcon hcalls henv
        · exact hn.eval hcon hcalls henv

theorem refers_mirror (h : Mirrored C R p p' entry entry' o o') {target target' t t'}
    (hid : R target target') (h' : Expands p' scope' target' t') :
    Refers p scope target t → TermsMirror C R p p' o o' scope scope' t t'
  | .param hkind hscope => h.param_mirrors hkind hscope hid h'
  | .prim hkind => h.prim_mirrors hkind hid h'
  | .closure hkind hfunction hscope => h.closure_mirrors hkind hfunction hscope hid h'
  | .inlined htarget =>
    (expands_mirror h hid h' htarget).same_left ⟨funext fun _ => rfl, fun _ _ _ => rfl⟩
  | .global hkind hslot => by
    obtain ⟨function, hfunction, hnone, hsame⟩ := global_eval h.settled h.covers hslot
    exact (h.closure_mirrors hkind hfunction (hnone ▸ List.nil_subset scope) hid h').same_left hsame

end

end

/-! ## Runs -/

/-- The routine that is called, or what is wrong with the number of arguments. -/
theorem called_alike (h : Mirrored C R p p' entry entry' o o')
    (hclosures : Closures R p p' id id' function function' captured captured')
    (hargs : List.Forall₂ (Mirrors R p p') args args') :
    Alike (fun r r' => RoutineOf p id r ∧ RoutineOf p' id' r' ∧
        args.length = (p.module.params id).length)
      (o.called function (captured ++ args)) (o'.called function' (captured' ++ args')) := by
  obtain ⟨r, hr, hof⟩ := h.covers.routine hclosures.function
  obtain ⟨r', hr', hof'⟩ := h.covers'.routine hclosures.function'
  have harity := h.arity_eq hclosures.twins hclosures.function hclosures.function'
  unfold Outline.called
  simp only [hr, hr', hof.scope_length, hof'.scope_length, ← harity,
    ← h.length_eq hclosures hargs]
  split
  · rename_i hlen
    rw [List.length_append, hclosures.length, Plan.arity] at hlen
    exact .pure ⟨hof, hof', by omega⟩
  · exact .throw _ _

/-- Calls are alike, however many more of them may nest. -/
theorem call_alike (h : Mirrored C R p p' entry entry' o o')
    (hcon : ∀ name, C name → conValue number name = conValue number' name) (limit free : Nat) :
    CallsMirror R p p' (o.call number limit free) (o'.call number' limit free) := by
  induction free with
  | zero =>
    refine ⟨o.call_intrinsic number limit _, o'.call_intrinsic number' limit _, ?_⟩
    intro id id' function function' captured captured' args args' hclosures _ hargs
    exact (h.called_alike hclosures hargs).bind fun _ _ _ => .throw _ _
  | succ free ih =>
    refine ⟨o.call_intrinsic number limit _, o'.call_intrinsic number' limit _, ?_⟩
    intro id id' function function' captured captured' args args' hclosures hcaptured hargs
    refine (h.called_alike hclosures hargs).bind fun r r' hroutines => ?_
    obtain ⟨hof, hof', hlen⟩ := hroutines
    obtain ⟨_, body, hkind, hbody⟩ := hof.body
    obtain ⟨_, body', hkind', hbody'⟩ := hof'.body
    obtain ⟨_, _, hlambda, hrel⟩ := lambda_twins h.module hclosures.twins hkind
    cases hkind'.symm.trans hlambda
    refine .bind (.refl _) fun _ _ _ => (h.expands_mirror hrel hbody' hbody).eval hcon ih ?_
    rw [hof.scope_eq, hof'.scope_eq]
    exact h.bound_mirrors hclosures hcaptured hargs hlen

theorem entry_alike (h : Mirrored C R p p' entry entry' o o')
    (hcon : ∀ name, C name → conValue number name = conValue number' name) (limit : Nat) :
    Alike (Mirrors R p p') (o.eval number limit) (o'.eval number' limit) := by
  have hnone : MirrorsIn R p p' [] [] (bound [] []) (bound [] []) := fun _ hx => nomatch hx
  obtain ⟨value', hvalue', _, heval⟩ := h.covers'.main.expands h.settled' h.covers'
  unfold Outline.eval
  rw [heval]
  exact (h.refers_mirror h.entry hvalue' h.covers.main).eval hcon (h.call_alike hcon limit limit) hnone

/-- The runs of twins write the same, and end with the same result as far as it is shown, or with
the same error. -/
theorem run (h : Mirrored C R p p' entry entry' o o')
    (hcon : ∀ name, C name → conValue number name = conValue number' name) (limit : Nat) :
    (o.run number limit).map (·.transcript) = (o'.run number' limit).map (·.transcript) := by
  have hends := h.entry_alike hcon limit .start
  unfold Outline.run
  simp only [ExceptT.run, StateT.run]
  rcases hrun : o.eval number limit .start with ⟨e | v, st⟩ <;>
    rcases hrun' : o'.eval number' limit .start with ⟨e' | v', st'⟩ <;> rw [hrun, hrun'] at hends
  · exact congrArg Except.error hends.2
  · exact hends.elim
  · exact hends.elim
  · obtain ⟨rfl, hmirrors⟩ := hends
    exact congrArg Except.ok (hmirrors.transcript_eq _)

end Mirrored

/-- The outlines of twins mirror one another. -/
theorem mirrored_of_twins {C R m m'} (h : Twins C R m m') (regular : Regular m)
    (regular' : Regular m') {o o'} (ho : outlineOf m = .ok o) (ho' : outlineOf m' = .ok o') :
    ∃ entry entry', Mirrored C R (planOf m false).1 (planOf m' false).1 entry entry' o o' := by
  obtain ⟨entry, hentry, hcovers⟩ := outlineOf_covers ho
  obtain ⟨entry', hentry', hcovers'⟩ := outlineOf_covers ho'
  obtain ⟨other, hother, hrel⟩ := definition_twins h hentry
  rw [h.entry, hentry'] at hother
  cases hother
  exact ⟨entry, entry',
    { module := h
      shaped := regular.shaped
      shaped' := regular'.shaped
      captures := fun hid hfunction hfunction' =>
        length_captures_twins h regular regular' hid
          (List.mem_of_getElem? (getElem_of_lastIndex hfunction))
          (List.mem_of_getElem? (getElem_of_lastIndex hfunction'))
      settled := planOf_settled m false
      settled' := planOf_settled m' false
      covers := hcovers
      covers' := hcovers'
      entry := hrel }⟩

end Lamina.Flat
