import Lamina.Proofs.Core.Eval
import Lamina.Proofs.Core.Lowered
import Lamina.Proofs.Lookup
import Lamina.Proofs.Surface.Eval
import Lamina.Proofs.Surface.Formed

/-!
# A lowered graph means what its tree means

The evaluators of trees and of graphs run in step. A scope of the tree and its frame of nodes bind
the same names: the parameters of a lambda to values and to placeholders, a block to expressions and
to the nodes they are lowered to (`ScopesMatch`). The environment of the graph may bind more
placeholders, for it is never cut back to that of a binding; those are of no use to the binding.
-/

namespace Lamina.Core

open Lamina.Surface (Ident Expr Decl Frame Subject SourceName FormedDecls findParam definition?
  preludeValue? resolve)
open Lamina.Reference (EvalM Agree Matches)

mutual

/-- A function of the tree and the closure of the lambda it is lowered to. -/
inductive ClosureMatches (m : Module) (operators : Bool) : Surface.Closure → Closure → Prop
  | mk {names params e scopes lambda body scope env} (hkind : m.kind lambda = .lambda scope body)
      (hparams : Parameters m names params (m.scopes.bindings scope)) (hformed : e.Formed)
      (hbody : Lowered m scope (m.scopes.bindings scope :: names) e (m.kind body))
      (hscopes : ScopesMatch m operators names scopes env) :
      ClosureMatches m operators ⟨params, e, scopes⟩ ⟨lambda, body, env⟩

/-- The scopes of the tree, the frames they are lowered to, and an environment with the values of
all parameters in them. -/
inductive ScopesMatch (m : Module) (operators : Bool) : Names → Surface.Env → Env → Prop
  | prelude {frame env} (hprelude : LoweredPrelude m operators frame) :
      ScopesMatch m operators [frame] [] env
  | params {names params frame scopes env values values'}
      (hparams : Parameters m names params frame)
      (hlookup : List.Forall₂ (fun binding v => env.lookup binding.2 = some v) frame values')
      (hvalues : List.Forall₂ (Matches Surface.Closure.arity (ClosureMatches m operators)) values
        values') (hscopes : ScopesMatch m operators names scopes env) :
      ScopesMatch m operators (frame :: names) (.params params values :: scopes) env
  | block {names : Names} {decls frame scopes env inside} (hformed : FormedDecls decls)
      (hblock : LoweredBlock m inside (frame :: names) decls frame)
      (hscopes : ScopesMatch m operators names scopes env) :
      ScopesMatch m operators (frame :: names) (.block decls :: scopes) env

end

/-- Values of the two evaluators that match. -/
abbrev ValueMatches (m : Module) (operators : Bool) : Surface.Value → Value → Prop :=
  Matches Surface.Closure.arity (ClosureMatches m operators)

/-- What is evaluated in the tree, and the node that is evaluated in the graph. -/
inductive SubjectMatches (m : Module) (operators : Bool) (env : Env) : Subject → NodeId → Prop
  | param {id v v'} (hkind : m.kind id = .placeholder) (hlookup : env.lookup id = some v')
      (hvalue : ValueMatches m operators v v') : SubjectMatches m operators env (.value v) id
  | prelude {id op} (hkind : m.kind id = .intrinsic op) :
      SubjectMatches m operators env (.value (.prim op [])) id
  | expr {id names scopes e inside} (hformed : e.Formed)
      (hlowered : Lowered m inside names e (m.kind id))
      (hscopes : ScopesMatch m operators names scopes env) :
      SubjectMatches m operators env (.expr scopes e) id

/-! ## Names -/

section

variable {m : Module} {operators : Bool} {env : Env} {frame : Bindings} {names : Names}
  {name : String} {scopes : Surface.Env} {inside : ScopeId} {params : List Ident}
  {c : Surface.Closure} {d : Closure}

/-- The prelude binds its names to intrinsics. -/
theorem prelude_matches (h : LoweredPrelude m operators frame) (name : String) :
    match frame.lookup name with
    | some id => ∃ op, preludeValue? operators name = some (.prim op []) ∧ m.kind id = .intrinsic op
    | none => preludeValue? operators name = none := by
  unfold preludeValue?
  unfold LoweredPrelude at h
  generalize Lowering.preludeNames operators = entries at h
  induction h with
  | nil => rfl
  | @cons entry binding _ _ hentry _ ih =>
    obtain ⟨bound, id⟩ := binding
    obtain ⟨rfl, hkind⟩ : bound = entry.2 ∧ m.kind id = .intrinsic entry.1 := hentry
    by_cases heq : name = entry.2
    · subst heq
      rw [List.lookup_cons_self, List.find?_cons_of_pos (by simp)]
      exact ⟨entry.1, rfl, hkind⟩
    · rw [lookup_cons_of_ne heq, List.find?_cons_of_neg (by simpa using Ne.symm heq)]
      exact ih

/-- A block binds its names to expressions that are lowered to the nodes of its frame. -/
theorem block_matches {decls : List Decl} (hformed : FormedDecls decls)
    (h : LoweredBlock m inside names decls frame) (name : String) :
    match frame.lookup name with
    | some id =>
      ∃ e, definition? name decls = some e ∧ e.Formed ∧ Lowered m inside names e (m.kind id)
    | none => definition? name decls = none := by
  induction decls generalizing frame with
  | nil =>
    cases h
    rfl
  | cons decl rest ih =>
    cases h with
    | @function _ _ id params e span _ node frame hnode hrest =>
      rw [definition?]
      by_cases heq : name = id.name
      · rw [heq, List.lookup_cons_self, if_pos rfl]
        exact ⟨_, rfl, hformed.1, .lambda hnode⟩
      · rw [lookup_cons_of_ne heq, if_neg (Ne.symm heq)]
        exact ih hformed.2 hrest
    | @value _ _ id e span _ node frame hnode hrest =>
      rw [definition?]
      by_cases heq : name = id.name
      · rw [heq, List.lookup_cons_self, if_pos rfl]
        exact ⟨_, rfl, hformed.1, hnode⟩
      · rw [lookup_cons_of_ne heq, if_neg (Ne.symm heq)]
        exact ih hformed.2 hrest
    | signature hrest => exact ih hformed hrest

/-- The parameters of a lambda have values, each under its own name. -/
theorem params_matches {R index values values'} (hname : SourceName name)
    (hkeys : frame.map (·.1) = paramKeys index params)
    (hlookup : List.Forall₂ (fun binding v => env.lookup binding.2 = some v) frame values')
    (hvalues : List.Forall₂ R values values') :
    match frame.lookup name with
    | some id => id ∈ frame.map (·.2) ∧
        ∃ v v', findParam name params values = some v ∧ env.lookup id = some v' ∧ R v v'
    | none => findParam name params values = none := by
  induction params generalizing index frame values values' with
  | nil =>
    obtain rfl : frame = [] := List.map_eq_nil_iff.mp hkeys
    rfl
  | cons param rest ih =>
    cases hlookup with
    | nil => cases hkeys
    | @cons binding v' frame values' hfirst hlookup =>
      cases hvalues with
      | @cons v _ values _ hv hvalues =>
        rw [List.map_cons, paramKeys, List.cons.injEq] at hkeys
        obtain ⟨hkey, hkeys⟩ := hkeys
        -- the frame has the key of the parameter, under which a wildcard is never found
        have hfound := paramKey_eq_iff hname index param
        rw [List.lookup_cons, findParam, hkey]
        by_cases heq : paramKey index param = name
        · have hb : (name == paramKey index param) = true := beq_iff_eq.mpr heq.symm
          rw [hb, if_pos (hfound.mp heq)]
          exact ⟨List.mem_cons_self, v, v', rfl, hfirst, hv⟩
        · have hb : (name == paramKey index param) = false :=
            beq_eq_false_iff_ne.mpr (Ne.symm heq)
          rw [hb, if_neg (mt hfound.mpr heq)]
          have hrest := ih hkeys hlookup hvalues
          cases hid : frame.lookup name with
          | none =>
            rw [hid] at hrest
            exact hrest
          | some id =>
            rw [hid] at hrest
            exact ⟨List.mem_cons_of_mem _ hrest.1, hrest.2⟩

/-- A name leads to the same place in the scopes of the tree and among the frames of the graph. -/
theorem resolve_matches (hname : SourceName name) (h : ScopesMatch m operators names scopes env) :
    match names.find? name with
    | some id => ∃ subject, resolve operators name scopes = some subject ∧
        SubjectMatches m operators env subject id
    | none => resolve operators name scopes = none := by
  induction scopes generalizing names with
  | nil =>
    cases h with
    | @prelude frame _ hprelude =>
      have hfound := prelude_matches hprelude name
      simp only [Names.find?, List.findSome?_cons, List.findSome?_nil]
      unfold resolve
      cases hlookup : frame.lookup name with
      | none =>
        rw [hlookup] at hfound
        simp only [hfound, Option.map_none]
      | some id =>
        rw [hlookup] at hfound
        obtain ⟨op, hvalue, hkind⟩ := hfound
        simp only [hvalue, Option.map_some]
        exact ⟨_, rfl, .prelude hkind⟩
  | cons scope rest ih =>
    cases h with
    | @params names params frame _ _ values values' hparams hlookup hvalues hscopes =>
      have hfound := params_matches hname hparams.keys hlookup hvalues
      simp only [Names.find?, List.findSome?_cons]
      unfold resolve
      cases hid : frame.lookup name with
      | none =>
        rw [hid] at hfound
        simp only [hfound]
        exact ih hscopes
      | some id =>
        rw [hid] at hfound
        obtain ⟨hmem, v, v', hfind, hv', hv⟩ := hfound
        obtain ⟨binding, hbinding, rfl⟩ := List.mem_map.mp hmem
        simp only [hfind]
        exact ⟨_, rfl, .param (hparams.placeholder binding hbinding) hv' hv⟩
    | @block names decls frame _ _ _ hformed hblock hscopes =>
      have hfound := block_matches hformed hblock name
      simp only [Names.find?, List.findSome?_cons]
      unfold resolve
      cases hid : frame.lookup name with
      | none =>
        rw [hid] at hfound
        simp only [hfound]
        exact ih hscopes
      | some id =>
        rw [hid] at hfound
        obtain ⟨e, hfind, he, hlowered⟩ := hfound
        simp only [hfind]
        -- the binding is lowered where its block is the innermost scope
        exact ⟨_, rfl, .expr he hlowered (.block hformed hblock hscopes)⟩

/-! ## Environments -/

/-- Values for placeholders that are not in scope change nothing. -/
theorem ScopesMatch.extend (h : ScopesMatch m operators names scopes env) {more : Env}
    (hmore : ∀ id ∈ names.nodes, id ∉ more.map (·.1)) :
    ScopesMatch m operators names scopes (more ++ env) := by
  induction scopes generalizing names with
  | nil =>
    cases h with
    | prelude hprelude => exact .prelude hprelude
  | cons scope rest ih =>
    have htail : ∀ {frame : Bindings} {names : Names},
        (∀ id ∈ Names.nodes (frame :: names), id ∉ more.map (·.1)) →
        ∀ id ∈ names.nodes, id ∉ more.map (·.1) :=
      fun hmore id hid => hmore id (List.mem_append_right _ hid)
    cases h with
    | @params names params frame _ _ values values' hparams hlookup hvalues hscopes =>
      refine .params hparams ?_ hvalues (ih hscopes (htail hmore))
      obtain ⟨hlen, hzip⟩ := List.forall₂_iff_zip.mp hlookup
      refine List.forall₂_iff_zip.mpr ⟨hlen, fun {binding v} hmem => ?_⟩
      have hframe : binding.2 ∈ Names.nodes (frame :: names) :=
        List.mem_append_left _ (List.mem_map_of_mem (List.of_mem_zip hmem).1)
      have hskip := lookup_eq_none_iff_not_mem.mpr (hmore binding.2 hframe)
      rw [List.lookup_append, hskip, Option.none_or]
      exact hzip hmem
    | block hformed hblock hscopes =>
      exact .block hformed hblock (ih hscopes (htail hmore))

theorem params_of_kind {lambda body scope} (h : m.kind lambda = .lambda scope body) :
    m.params lambda = (m.scopes.bindings scope).map (·.2) := by
  unfold Module.params
  rw [h]

theorem ClosureMatches.arity_eq (h : ClosureMatches m operators c d) : c.arity = d.arity m := by
  cases h with
  | mk hkind hparams =>
    rw [Surface.Closure.arity, Closure.arity, params_of_kind hkind, List.length_map,
      hparams.length_eq]

/-- A function of the tree is called with the body of its lambda, and its parameters have values. -/
theorem ClosureMatches.call_matches (h : ClosureMatches m operators c d) {args args'}
    (hlen : args.length = c.arity) (hargs : List.Forall₂ (ValueMatches m operators) args args') :
    SubjectMatches m operators (d.bind m args') (c.call args) d.body := by
  cases h with
  | @mk names params e scopes lambda body scope env hkind hparams hformed hbody hscopes =>
    have hlength : ((m.scopes.bindings scope).map (·.2)).length = args'.length := by
      rw [List.length_map, hparams.length_eq, ← hargs.length_eq]
      exact hlen.symm
    have hkeys : ((((m.scopes.bindings scope).map (·.2)).zip args').reverse.map (·.1)) =
        ((m.scopes.bindings scope).map (·.2)).reverse := by
      rw [List.map_reverse, List.map_fst_zip (Nat.le_of_eq hlength)]
    simp only [Closure.bind, params_of_kind hkind]
    -- the placeholders of a lambda are pairwise different, so each one finds its own argument,
    -- and new, so that the arguments hide nothing of what is around the lambda
    refine .expr hformed hbody (.params hparams ?_ hargs (hscopes.extend ?_))
    · rw [List.length_map] at hlength
      refine List.forall₂_iff_zip.mpr ⟨hlength, fun {binding v} hmem => ?_⟩
      have hin : (binding.2, v) ∈ (((m.scopes.bindings scope).map (·.2)).zip args').reverse := by
        rw [List.mem_reverse, List.zip_map_left]
        exact List.mem_map.mpr ⟨_, hmem, rfl⟩
      have hfound := lookup_of_mem (hkeys ▸ List.nodup_reverse.mpr hparams.nodup) hin
      rw [List.lookup_append, hfound]
      rfl
    · intro id hid
      rw [hkeys, List.mem_reverse]
      intro hmem
      obtain ⟨binding, hbinding, rfl⟩ := List.mem_map.mp hmem
      exact hparams.fresh binding hbinding hid

/-! ## Evaluation -/

/-- Inside its blocks an expression is still lowered to the same node. -/
theorem enter_matches {e kind} (hformed : e.Formed) (hlowered : Lowered m inside names e kind)
    (hscopes : ScopesMatch m operators names scopes env) :
    ∃ inner names', (e.enter scopes).2.Formed ∧ Lowered m inner names' (e.enter scopes).2 kind ∧
      ScopesMatch m operators names' (e.enter scopes).1 env := by
  fun_induction Expr.enter e scopes generalizing inside names with
  | case1 scopes decls body span ih =>
    cases hlowered with
    | letIn _ hblock hbody => exact ih hformed.2 hbody (.block hformed.1 hblock hscopes)
  | case2 => exact ⟨inside, names, hformed, hlowered, hscopes⟩

theorem enter_not_let (scopes : Surface.Env) (e : Expr) (decls : List Decl) (body : Expr)
    (span : Span) : (e.enter scopes).2 ≠ .letIn decls body span := by
  fun_induction Expr.enter e scopes with
  | case1 scopes decls' body' span' ih => exact ih
  | case2 scopes e hnot => exact fun heq => hnot decls body span heq

/-- The evaluators run in step: what a subject means in the tree, its node means in the graph. -/
theorem eval_agree (number : String → Nat) {fuel nest subject id}
    (h : SubjectMatches m operators env subject id) :
    Agree (ValueMatches m operators) (Surface.eval operators number fuel nest subject)
      (eval m number fuel nest env id) := by
  -- each step of the tree is a step of the graph; blocks are entered without taking one
  induction fuel generalizing nest env subject id with
  | zero => exact .unfinished _
  | succ fuel ih =>
    cases h with
    | param hkind hlookup hvalue =>
      simp only [Surface.eval, eval, hkind, Env.get, hlookup]
      exact .pure hvalue
    | prelude hkind =>
      simp only [Surface.eval, eval, hkind]
      exact .pure (.prim _ .nil)
    | @expr _ names scopes e _ hformed hlowered hscopes =>
      obtain ⟨inside, names, hformed, hlowered, hscopes⟩ := enter_matches hformed hlowered hscopes
      have hlet := enter_not_let scopes e
      have happly : ∀ {func arg func' arg'},
          ValueMatches m operators func func' → ValueMatches m operators arg arg' →
          Agree (ValueMatches m operators)
            (Reference.apply number Surface.Closure.arity (Reference.within nest
              fun nest c args => Surface.eval operators number fuel nest (c.call args))
              func arg)
            (Reference.apply number (·.arity m) (Reference.within nest
              fun nest c args => eval m number fuel nest (c.bind m args) c.body)
              func' arg') := by
        intro func arg func' arg' hfunc harg
        refine Reference.apply_agree number (fun h => h.arity_eq) ?_ hfunc harg
        intro c d args args' hclosure hlen hargs
        exact Reference.within_agree nest fun _ => ih (hclosure.call_matches hlen hargs)
      simp only [Surface.eval, eval]
      generalize e.enter scopes = inner at hformed hlowered hscopes hlet ⊢
      obtain ⟨scopes, e⟩ := inner
      generalize hkind : m.kind id = kind at hlowered ⊢
      simp only at hformed hlowered hscopes hlet ⊢
      cases hlowered with
      | @var _ _ name _ hresolves =>
        have hfound := resolve_matches hformed hscopes
        cases hresolves with
        | bound htarget =>
          rw [htarget] at hfound
          obtain ⟨subject, hsubject, hmatch⟩ := hfound
          simp only [hsubject]
          exact ih hmatch
        | catalog hnone hop =>
          rw [hnone] at hfound
          simp only [hfound, Surface.catalog, hop]
          exact .pure (.prim _ .nil)
      | con => exact .pure (Reference.matches_constructor _)
      | @lit _ _ value _ =>
        cases value with
        | int n => exact .pure (.int n)
        | str text => exact .pure (.str text)
      | @neg _ _ e _ func arg hfunc harg =>
        have hformed : e.Formed := hformed
        -- the graph has a node for the intrinsic, which takes a step of its own to evaluate
        cases fuel with
        | zero => exact fun _ => trivial
        | succ fuel =>
          have hnegate : eval m number (fuel + 1) nest env func =
              pure (.prim .negate []) := by
            simp only [eval, hfunc]
          simp only
          rw [hnegate, pure_bind]
          exact (ih (.expr hformed harg hscopes)).bind fun _ _ ha =>
            happly (.prim _ .nil) ha
      | @binOp _ _ op l r span func lhs applied rhs hop hlhs happlied hrhs =>
        obtain ⟨hname, hleft, hright⟩ := hformed
        have hpartial : Lowered m inside names (.app (.var op) l span) (m.kind applied) :=
          happlied ▸ .app (.var hop) hlhs
        have hpartialFormed : (Expr.app (.var op) l span).Formed := ⟨hname, hleft⟩
        refine (ih (.expr hpartialFormed hpartial hscopes)).bind fun f f' hf => ?_
        exact (ih (.expr hright hrhs hscopes)).bind fun a a' ha => happly hf ha
      | app hfunc harg =>
        refine (ih (.expr hformed.1 hfunc hscopes)).bind fun f f' hf => ?_
        exact (ih (.expr hformed.2 harg hscopes)).bind fun a a' ha => happly hf ha
      | cond htest htrue hfalse =>
        obtain ⟨ftest, ftrue, ffalse⟩ := hformed
        refine (ih (.expr ftest htest hscopes)).bind fun v v' hv => ?_
        refine (Reference.condition_agree number hv).bind fun b b' hb => ?_
        subst hb
        split
        · exact ih (.expr ftrue htrue hscopes)
        · exact ih (.expr ffalse hfalse hscopes)
      | letIn => exact absurd rfl (hlet _ _ _)
      | lambda hlambda =>
        cases hlambda with
        | mk _ hparams hbody =>
          have hlen := List.length_pos_iff.mpr hformed.1.ne_nil
          exact .pure (.closure (.mk hkind hparams hformed.2 hbody hscopes) hlen .nil)

end

end Lamina.Core
