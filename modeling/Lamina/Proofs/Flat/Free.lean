import Lamina.Flat.Capture
import Lamina.Proofs.Core.Lowered
import Lamina.Proofs.Lookup

/-!
# Free parameters

The parameters that a node mentions, lambdas below it included, and that no lambda on the way there
binds (`Mentions`). Names lead to what encloses them in the text, so a node mentions only parameters
that are visible where it is written (`Placed.mentions`); a top-level definition mentions none
(`definition_closed`).
-/

namespace Lamina.Flat

open Lamina.Core (NodeId NodeKind Module Names Bindings ScopeId Lowered LoweredLambda LoweredBlock
  LoweredModule Resolves)
open Lamina.Surface (Ident Expr Decl)

variable {m : Module} {id x : NodeId} {params : List NodeId} {operators : Bool}
  {tree : Surface.Module}

/-- A node mentions a parameter: on the way there no top-level definition is entered, and no lambda
has the parameter as its own. -/
inductive Mentions (m : Module) : NodeId → NodeId → Prop
  | here {id : NodeId} (hkind : m.kind id = .placeholder) : Mentions m id id
  | step {id next x} (hnext : next ∈ evaluated m id) (h : Mentions m next x) : Mentions m id x
  | lambda {id scope body x} (hkind : m.kind id = .lambda scope body) (h : Mentions m body x)
      (hown : x ∉ m.params id) : Mentions m id x

/-- Only parameters are mentioned. -/
theorem Mentions.placeholder (h : Mentions m id x) : m.kind x = .placeholder := by
  induction h with
  | here hkind => exact hkind
  | step _ _ ih => exact ih
  | lambda _ _ _ ih => exact ih

/-! ## Where nodes are written -/

/-- The names in scope somewhere in the text of a module, and the parameters among what they stand
for: at the top there are none, each function adds its own, and blocks add none. -/
inductive Visible (m : Module) : Names → List NodeId → Prop
  | top : Visible m [m.definitions, m.scopes.bindings m.root] []
  | function {names params frame} (h : Visible m names params)
      (hframe : ∀ binding ∈ frame, m.kind binding.2 = .placeholder) :
      Visible m (frame :: names) (frame.map (·.2) ++ params)
  | block {names params frame inside decls} (h : Visible m names params)
      (hblock : LoweredBlock m inside (frame :: names) decls frame) :
      Visible m (frame :: names) params

/-- The contents of a node that was made for something written where `names` are visible. -/
inductive Placed (m : Module) (names : Names) : NodeKind → Prop
  | expr {inside e kind} (h : Lowered m inside names e kind) : Placed m names kind
  | function {inside params e kind} (h : LoweredLambda m inside names params e kind) :
      Placed m names kind
  | name {name kind} (h : Resolves names name kind) : Placed m names kind
  | negate : Placed m names (.intrinsic .negate)
  /-- An operator with its left side. -/
  | applied {inside name e func lhs} (hop : Resolves names name (m.kind func))
      (hlhs : Lowered m inside names e (m.kind lhs)) : Placed m names (.application func lhs)

/-- What the parts of a node were made for, given the parameters that are visible at the node. -/
inductive PartsPlaced (m : Module) (params : List NodeId) : NodeKind → Prop
  | leaf {kind} (hchildren : kind.children = []) (hreference : ∀ target, kind ≠ .indirection target)
      (hparam : kind ≠ .placeholder) : PartsPlaced m params kind
  | reference {names name target} (hvisible : Visible m names params)
      (htarget : names.find? name = some target) : PartsPlaced m params (.indirection target)
  | application {names func arg} (hvisible : Visible m names params)
      (hfunc : Placed m names (m.kind func)) (harg : Placed m names (m.kind arg)) :
      PartsPlaced m params (.application func arg)
  | conditional {names test onTrue onFalse} (hvisible : Visible m names params)
      (htest : Placed m names (m.kind test)) (htrue : Placed m names (m.kind onTrue))
      (hfalse : Placed m names (m.kind onFalse)) :
      PartsPlaced m params (.conditional test onTrue onFalse)
  | lambda {names : Names} {scope body}
      (hvisible : Visible m (m.scopes.bindings scope :: names)
        ((m.scopes.bindings scope).map (·.2) ++ params))
      (hbody : Placed m (m.scopes.bindings scope :: names) (m.kind body)) :
      PartsPlaced m params (.lambda scope body)

section

variable {m : Module} {names : Names} {params : List NodeId} {kind : NodeKind} {name : String}
  {inside : ScopeId}

theorem partsPlaced_name (hvisible : Visible m names params) (h : Resolves names name kind) :
    PartsPlaced m params kind := by
  cases h with
  | bound htarget => exact .reference hvisible htarget
  | catalog _ _ => exact .leaf rfl (by simp) (by simp)

theorem partsPlaced_lambda (hvisible : Visible m names params) {idents e}
    (h : LoweredLambda m inside names idents e kind) : PartsPlaced m params kind := by
  cases h with
  | mk _ hparams hbody => exact .lambda (.function hvisible hparams.placeholder) (.expr hbody)

/-- A `let` adds a block to what is visible and leaves the parameters as they are. -/
theorem partsPlaced_expr {names inside e kind} (hvisible : Visible m names params)
    (h : Lowered m inside names e kind) : PartsPlaced m params kind := by
  cases h with
  | var h => exact partsPlaced_name hvisible h
  | con => exact .leaf rfl (by simp) (by simp)
  | lit => exact .leaf rfl (by simp) (by simp)
  | neg hfunc harg => exact .application hvisible (hfunc ▸ .negate) (.expr harg)
  | binOp hop hlhs happlied hrhs =>
    exact .application hvisible (happlied ▸ .applied hop hlhs) (.expr hrhs)
  | app hfunc harg => exact .application hvisible (.expr hfunc) (.expr harg)
  | cond htest htrue hfalse =>
    exact .conditional hvisible (.expr htest) (.expr htrue) (.expr hfalse)
  | letIn _ hblock hbody => exact partsPlaced_expr (.block hvisible hblock) hbody
  | lambda h => exact partsPlaced_lambda hvisible h
termination_by e

theorem Placed.parts (h : Placed m names kind) (hvisible : Visible m names params) :
    PartsPlaced m params kind := by
  cases h with
  | expr h => exact partsPlaced_expr hvisible h
  | function h => exact partsPlaced_lambda hvisible h
  | name h => exact partsPlaced_name hvisible h
  | negate => exact .leaf rfl (by simp) (by simp)
  | applied hop hlhs => exact .application hvisible (.name hop) (.expr hlhs)

/-! ## Where names lead -/

theorem placed_of_mem {decls frame} (h : LoweredBlock m inside names decls frame) {binding}
    (hbinding : binding ∈ frame) : Placed m names (m.kind binding.2) := by
  induction decls generalizing frame with
  | nil =>
    cases h
    cases hbinding
  | cons decl rest ih =>
    cases h with
    | function hnode hrest =>
      rcases List.mem_cons.mp hbinding with rfl | hmem
      · exact .function hnode
      · exact ih hrest hmem
    | value hnode hrest =>
      rcases List.mem_cons.mp hbinding with rfl | hmem
      · exact .expr hnode
      · exact ih hrest hmem
    | signature hrest => exact ih hrest hbinding

/-- What a name stands for: something top-level, a visible parameter, or a binding of a block that
encloses the name. -/
inductive Target (m : Module) (params : List NodeId) (target : NodeId) : Prop
  | definition (h : m.isDefinition target)
  | intrinsic {op} (hkind : m.kind target = .intrinsic op)
  | param (hkind : m.kind target = .placeholder) (hmem : target ∈ params)
  | binding {names outer} (hvisible : Visible m names outer) (houter : outer ⊆ params)
      (hplaced : Placed m names (m.kind target))

theorem Target.mono {more target} (h : Target m params target) (hsub : params ⊆ more) :
    Target m more target := by
  cases h with
  | definition h => exact .definition h
  | intrinsic hkind => exact .intrinsic hkind
  | param hkind hmem => exact .param hkind (hsub hmem)
  | binding hvisible houter hplaced =>
    exact .binding hvisible (List.Subset.trans houter hsub) hplaced

theorem Visible.target (h : Visible m names params)
    (hprelude : ∀ binding ∈ m.scopes.bindings m.root, ∃ op, m.kind binding.2 = .intrinsic op)
    {target : NodeId} (hfind : names.find? name = some target) : Target m params target := by
  induction h with
  | top =>
    simp only [Names.find?, List.findSome?_cons] at hfind
    cases hdefinition : m.definitions.lookup name with
    | some node =>
      simp only [hdefinition, Option.some.injEq] at hfind
      subst hfind
      refine .definition (List.any_eq_true.mpr ⟨_, mem_of_lookup hdefinition, ?_⟩)
      simp
    | none =>
      simp only [hdefinition] at hfind
      cases hroot : (m.scopes.bindings m.root).lookup name with
      | some node =>
        simp only [hroot, Option.some.injEq] at hfind
        subst hfind
        obtain ⟨op, hop⟩ := hprelude _ (mem_of_lookup hroot)
        exact .intrinsic hop
      | none => simp [hroot] at hfind
  | @function names params frame hvisible hframe ih =>
    simp only [Names.find?, List.findSome?_cons] at hfind
    cases hlookup : frame.lookup name with
    | some node =>
      simp only [hlookup, Option.some.injEq] at hfind
      subst hfind
      have hmem := mem_of_lookup hlookup
      refine .param (hframe _ hmem) (List.mem_append_left _ ?_)
      exact List.mem_map.mpr ⟨_, hmem, rfl⟩
    | none =>
      simp only [hlookup] at hfind
      exact (ih hfind).mono (List.subset_append_right _ _)
  | @block names params frame inside decls hvisible hblock ih =>
    simp only [Names.find?, List.findSome?_cons] at hfind
    cases hlookup : frame.lookup name with
    | some node =>
      simp only [hlookup, Option.some.injEq] at hfind
      subst hfind
      exact .binding (.block hvisible hblock) (List.Subset.refl _)
        (placed_of_mem hblock (mem_of_lookup hlookup))
    | none =>
      simp only [hlookup] at hfind
      exact ih hfind

end

/-! ## What is mentioned is visible -/

theorem PartsPlaced.evaluated
    (hprelude : ∀ binding ∈ m.scopes.bindings m.root, ∃ op, m.kind binding.2 = .intrinsic op)
    {next : NodeId} (h : PartsPlaced m params (m.kind id)) (hnext : next ∈ evaluated m id) :
    (∃ op, m.kind next = .intrinsic op) ∨ (m.kind next = .placeholder ∧ next ∈ params) ∨
      ∃ names outer, Visible m names outer ∧ outer ⊆ params ∧ Placed m names (m.kind next) := by
  generalize hkind : m.kind id = kind at h
  unfold Flat.evaluated at hnext
  rw [hkind] at hnext
  cases h with
  | leaf hchildren hreference hparam =>
    cases kind with
    | application => cases hchildren
    | conditional => cases hchildren
    | indirection target => exact absurd rfl (hreference target)
    | _ => cases hnext
  | @reference names name target hvisible htarget =>
    simp only at hnext
    split at hnext
    · cases hnext
    · rename_i hlocal
      obtain rfl := List.mem_singleton.mp hnext
      cases hvisible.target hprelude htarget with
      | definition h => exact absurd h hlocal
      | intrinsic hop => exact .inl ⟨_, hop⟩
      | param hparam hmem => exact .inr (.inl ⟨hparam, hmem⟩)
      | binding hvisible' houter hplaced => exact .inr (.inr ⟨_, _, hvisible', houter, hplaced⟩)
  | application hvisible hfunc harg =>
    refine .inr (.inr ⟨_, _, hvisible, List.Subset.refl _, ?_⟩)
    rcases List.mem_pair.mp hnext with rfl | rfl
    · exact hfunc
    · exact harg
  | conditional hvisible htest htrue hfalse =>
    refine .inr (.inr ⟨_, _, hvisible, List.Subset.refl _, ?_⟩)
    simp only [List.mem_cons, List.not_mem_nil, or_false] at hnext
    rcases hnext with rfl | rfl | rfl
    · exact htest
    · exact htrue
    · exact hfalse
  | lambda => cases hnext

theorem Mentions.eq_of_placeholder (h : Mentions m id x) (hkind : m.kind id = .placeholder) :
    x = id := by
  cases h with
  | here => rfl
  | step hnext => simp [evaluated, hkind] at hnext
  | lambda hlambda => simp [hkind] at hlambda

theorem not_mentions_intrinsic {op} (hkind : m.kind id = .intrinsic op) : ¬ Mentions m id x := by
  intro h
  cases h with
  | here hparam => simp [hkind] at hparam
  | step hnext => simp [evaluated, hkind] at hnext
  | lambda hlambda => simp [hkind] at hlambda

/-- A node mentions parameters that are visible where it is written. -/
theorem Placed.mentions
    (hprelude : ∀ binding ∈ m.scopes.bindings m.root, ∃ op, m.kind binding.2 = .intrinsic op)
    (h : Mentions m id x) {names : Names} (hvisible : Visible m names params)
    (hplaced : Placed m names (m.kind id)) : x ∈ params := by
  induction h generalizing names params with
  | here hkind =>
    have hparts := hplaced.parts hvisible
    rw [hkind] at hparts
    cases hparts with
    | leaf _ _ hparam => exact absurd rfl hparam
  | step hnext hmention ih =>
    rcases (hplaced.parts hvisible).evaluated hprelude hnext with
      ⟨op, hop⟩ | ⟨hparam, hmem⟩ | ⟨names', outer, hvisible', houter, hplaced'⟩
    · exact absurd hmention (not_mentions_intrinsic hop)
    · exact hmention.eq_of_placeholder hparam ▸ hmem
    · exact houter (ih hvisible' hplaced')
  | @lambda id scope body x hkind hmention hown ih =>
    have hparts := hplaced.parts hvisible
    rw [hkind] at hparts
    have hparams : m.params id = (m.scopes.bindings scope).map (·.2) := by
      simp only [Module.params, hkind]
    cases hparts with
    | leaf hchildren => cases hchildren
    | lambda hinner hbody =>
      rcases List.mem_append.mp (ih hinner hbody) with hmem | hmem
      · exact absurd (hparams ▸ hmem) hown
      · exact hmem

theorem prelude_intrinsic (h : LoweredModule m operators tree) {binding}
    (hbinding : binding ∈ m.scopes.bindings m.root) : ∃ op, m.kind binding.2 = .intrinsic op := by
  obtain ⟨i, hi, rfl⟩ := List.mem_iff_getElem.mp hbinding
  have hlength := List.Forall₂.length_eq h.prelude
  have hentry := List.Forall₂.get h.prelude (hlength ▸ hi) hi
  exact ⟨_, hentry.2⟩

/-- A top-level definition mentions no parameter. -/
theorem definition_closed (h : LoweredModule m operators tree) (hdefinition : m.isDefinition id)
    (x : NodeId) : ¬ Mentions m id x := by
  intro hmention
  obtain ⟨binding, hbinding, heq⟩ := List.any_eq_true.mp hdefinition
  obtain rfl : binding.2 = id := by simpa using heq
  have hplaced := placed_of_mem h.definitions hbinding
  have := Placed.mentions (fun _ hb => prelude_intrinsic h hb) hmention .top hplaced
  cases this

end Lamina.Flat
