import Lamina.Proofs.Core.Accepts
import Lamina.Proofs.Core.Lowering

/-!
# Which modules are lowered

A module is lowered if and only if all its sites keep their rules (`lowerModule_lawful`), and that
is to say that it can be lowered (`lowerModule_accepts`).
-/

namespace Lamina.Core

open Lamina.Surface (Ident Expr Decl SourceName FormedDecls FormedParams)

variable {tree : Surface.Module} {options : LowerOptions}

/-- A module that is not lowered has a site that the error is about. -/
theorem lowerModule_blames {e : LowerError} (hformed : FormedDecls tree.decls)
    (h : (lowerModule options tree).1 = .error e) :
    ∃ site ∈ moduleSites options.preludeOperators tree, site.Blames options e := by
  have hchecks := lowerModule_checks options hformed
  rwa [h] at hchecks

/-- Lowering a module succeeds if and only if all its sites keep their rules. -/
theorem lowerModule_lawful (options : LowerOptions) (hformed : FormedDecls tree.decls) :
    (∃ m, (lowerModule options tree).1 = .ok m) ↔
      ∀ site ∈ moduleSites options.preludeOperators tree, site.Lawful options := by
  constructor
  · rintro ⟨m, hm⟩
    have hchecks := lowerModule_checks options hformed
    rw [hm] at hchecks
    exact hchecks.1
  · intro hlawful
    cases hresult : (lowerModule options tree).1 with
    | ok m => exact ⟨m, rfl⟩
    | error e =>
      obtain ⟨site, hsite, hblames⟩ := lowerModule_blames hformed hresult
      exact absurd (hlawful site hsite) hblames.not_lawful

/-! ## Texts that can be lowered -/

theorem visible_within {region : Region} (htells : region.Tells) {regions bound}
    (hbound : ∀ name, SourceName name → (bound name ↔ Visible regions name)) (name : String)
    (hname : SourceName name) :
    Within region.names bound name ↔ Visible (region :: regions) name := by
  rw [Within, hbound name hname, Visible, Visible]
  simp only [List.mem_cons, or_and_right, exists_or, exists_eq_left]
  exact or_congr_left
    ⟨fun hown => htells.bound name hown hname, fun hown => htells.sublist.subset hown⟩

section

variable {options : LowerOptions} {bound : String → Prop} {regions : List Region}

theorem lawful_use_iff {id : Ident} (hbound : bound id.name ↔ Visible regions id.name)
    (isOperator : Bool) (node : NodeId) :
    (if isOperator then OperatorKnown options bound id.name else bound id.name) ↔
      (Site.use ⟨id, isOperator, regions, node⟩).Lawful options := by
  rw [Site.Lawful, Use.Known, Use.isSome_binder?, ← hbound]
  cases isOperator <;> simp [OperatorKnown]

theorem lawful_lambdaSites {path first params A body} (hparams : FormedParams params)
    (hbody : A ↔ ∀ site ∈ body (first + params.length)
      (paramRegion (0 :: path) first params :: regions), site.Lawful options) :
    (paramKeys 0 params).Nodup ∧ A ↔
      ∀ site ∈ lambdaSites path first regions params body, site.Lawful options := by
  rw [lambdaSites, List.forall_mem_cons, hbody, nodup_paramKeys_iff hparams.names]
  rfl

mutual

/-- An expression can be lowered if and only if its sites keep their rules. -/
theorem accepts_iff {bound regions}
    (hbound : ∀ name, SourceName name → (bound name ↔ Visible regions name)) (path : Path)
    (first node : NodeId) :
    (e : Expr) → e.Formed →
      (Accepts options bound e ↔
        ∀ site ∈ exprSites path first node regions e, site.Lawful options)
  | .var id, hformed => by
    rw [exprSites, List.forall_mem_singleton, Accepts]
    exact lawful_use_iff (hbound _ hformed) _ node
  | .con _, _ | .lit .., _ => by
    rw [exprSites]
    exact iff_of_true trivial (List.forall_mem_nil _)
  | .neg arg _, hformed => by
    rw [exprSites, Accepts]
    exact accepts_iff hbound _ _ _ arg hformed
  | .binOp op lhs rhs _, hformed => by
    rw [exprSites, List.forall_mem_cons, List.forall_mem_append, Accepts]
    exact and_congr (lawful_use_iff (hbound _ hformed.1) true first)
      (and_congr (accepts_iff hbound _ _ _ lhs hformed.2.1)
        (accepts_iff hbound _ _ _ rhs hformed.2.2))
  | .app func arg _, hformed => by
    rw [exprSites, List.forall_mem_append, Accepts]
    exact and_congr (accepts_iff hbound _ _ _ func hformed.1)
      (accepts_iff hbound _ _ _ arg hformed.2)
  | .cond test onTrue onFalse _, hformed => by
    rw [exprSites, List.forall_mem_append, List.forall_mem_append, Accepts]
    exact and_congr (accepts_iff hbound _ _ _ test hformed.1)
      (and_congr (accepts_iff hbound _ _ _ onTrue hformed.2.1)
        (accepts_iff hbound _ _ _ onFalse hformed.2.2))
  | .letIn decls body _, hformed => by
    have hinner := visible_within (tells_blockRegion .letScope (0 :: path) first decls) hbound
    rw [exprSites, List.forall_mem_cons, List.forall_mem_append, Accepts]
    exact and_congr .rfl (and_congr (acceptsBlock_iff hinner _ _ _ _ decls hformed.1)
      (accepts_iff hinner _ _ _ body hformed.2))
  | .lambda params body _, hformed => by
    have hinner := visible_within (tells_paramRegion (0 :: path) first params) hbound
    rw [exprSites, Accepts]
    exact lawful_lambdaSites hformed.1 (accepts_iff hinner _ _ _ body hformed.2)
  | .caseOf .., _ | .doBlock _, _ | .tuple .., _ | .list .., _ => by
    rw [exprSites, Accepts]
    exact iff_of_false id fun h => h _ List.mem_cons_self

theorem acceptsBlock_iff {bound regions}
    (hbound : ∀ name, SourceName name → (bound name ↔ Visible regions name)) (path : Path)
    (index : Nat) (first slot : NodeId) :
    (decls : List Decl) → FormedDecls decls →
      (AcceptsBlock options bound decls ↔
        ∀ site ∈ bodySites path index first slot regions decls, site.Lawful options)
  | [], _ => by
    rw [bodySites]
    exact iff_of_true trivial (List.forall_mem_nil _)
  | .function name params body span :: rest, hformed => by
    have hinner := visible_within (tells_paramRegion (0 :: index :: path) first params) hbound
    rw [bodySites, List.forall_mem_append, AcceptsBlock]
    exact and_congr
      (lawful_lambdaSites hformed.1.1 (accepts_iff hinner _ _ _ body hformed.1.2))
      (acceptsBlock_iff hbound _ _ _ _ rest hformed.2)
  | .value name body span :: rest, hformed => by
    rw [bodySites, List.forall_mem_append, AcceptsBlock]
    exact and_congr (accepts_iff hbound _ _ _ body hformed.1)
      (acceptsBlock_iff hbound _ _ _ _ rest hformed.2)
  | .signature .. :: rest, hformed => by
    rw [bodySites]
    exact (acceptsBlock_iff hbound _ _ _ _ rest hformed :)
  | .unsupported .. :: rest, hformed => by
    rw [bodySites]
    exact (acceptsBlock_iff hbound _ _ _ _ rest hformed :)

end

end

/-- Lowering a module succeeds if and only if the module can be lowered. -/
theorem lowerModule_accepts (options : LowerOptions) (hformed : FormedDecls tree.decls) :
    (∃ m, (lowerModule options tree).1 = .ok m) ↔ AcceptsModule options tree.decls := by
  have hprelude : ∀ name, SourceName name →
      (name ∈ (Lowering.preludeNames options.preludeOperators).map (·.2) ↔
        Visible [preludeRegion options.preludeOperators] name) := by
    intro name _
    rw [← map_fst_preludeEntries, ← map_name_nameBinders [0] 0 0]
    simp [Visible, preludeRegion]
  have hinner := visible_within (tells_blockRegion .moduleScope [0, 1]
    (preludeEntries options.preludeOperators).length tree.decls) hprelude
  rw [lowerModule_lawful options hformed, moduleSites, List.forall_mem_cons, AcceptsModule]
  exact and_congr .rfl (acceptsBlock_iff hinner _ _ _ _ tree.decls hformed).symm

end Lamina.Core
