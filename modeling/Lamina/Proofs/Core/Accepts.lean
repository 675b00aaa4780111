import Lamina.Proofs.Core.Sites
import Lamina.Proofs.Surface.Reordered

/-!
# What can be lowered

A tree can be lowered if it has nothing that is refused, binds no name twice in one place, and uses
no name that is not in scope. The order of declarations has no say in that
(`acceptsModule_reordered`).
-/

namespace Lamina.Core

open Lamina.Surface (Ident Expr Decl FormedDecls FormedParams SameNames AlignedDecls)

variable {decls decls' middle : List Decl} {options : LowerOptions}

/-! ## The condition -/

/-- The names in scope where more names are bound. -/
def Within (names : List String) (bound : String → Prop) (name : String) : Prop :=
  name ∈ names ∨ bound name

/-- An operator that can be used: it is in scope, or it is that of an intrinsic and lowering is not
strict. -/
def OperatorKnown (options : LowerOptions) (bound : String → Prop) (name : String) : Prop :=
  bound name ∨ options.strict = false ∧ (Intrinsic.ofSourceName? name).isSome

mutual

/-- An expression can be lowered where the names in `bound` are in scope. -/
def Accepts (options : LowerOptions) (bound : String → Prop) : Expr → Prop
  | .var id =>
    if isOperatorName id.name then OperatorKnown options bound id.name else bound id.name
  | .con _ => True
  | .lit .. => True
  | .neg e _ => Accepts options bound e
  | .binOp op l r _ =>
    OperatorKnown options bound op.name ∧ Accepts options bound l ∧ Accepts options bound r
  | .app f a _ => Accepts options bound f ∧ Accepts options bound a
  | .cond c t e _ => Accepts options bound c ∧ Accepts options bound t ∧ Accepts options bound e
  | .letIn decls e _ =>
    Bindable decls ∧ AcceptsBlock options (Within (declNames decls) bound) decls ∧
      Accepts options (Within (declNames decls) bound) e
  | .lambda params e _ =>
    (paramKeys 0 params).Nodup ∧ Accepts options (Within (paramKeys 0 params) bound) e
  | .caseOf .. => False
  | .doBlock _ => False
  | .tuple .. => False
  | .list .. => False

/-- The bodies of a block can be lowered where the names in `bound` are in scope. -/
def AcceptsBlock (options : LowerOptions) (bound : String → Prop) : List Decl → Prop
  | [] => True
  | .function _ params e _ :: rest =>
    ((paramKeys 0 params).Nodup ∧ Accepts options (Within (paramKeys 0 params) bound) e) ∧
      AcceptsBlock options bound rest
  | .value _ e _ :: rest => Accepts options bound e ∧ AcceptsBlock options bound rest
  | _ :: rest => AcceptsBlock options bound rest

end

/-- A module can be lowered. -/
def AcceptsModule (options : LowerOptions) (decls : List Decl) : Prop :=
  Bindable decls ∧
    AcceptsBlock options (Within (declNames decls)
      (· ∈ (Lowering.preludeNames options.preludeOperators).map (·.2))) decls

/-! ## The order of declarations -/

theorem declNames_perm (h : decls.Perm decls') :
    (declNames decls).Perm (declNames decls') := h.filterMap _

theorem declNames_aligned (h : AlignedDecls decls decls') : declNames decls = declNames decls' := by
  induction decls generalizing decls' with
  | nil =>
    cases h
    rfl
  | cons decl rest ih =>
    cases h with
    | function hname _ _ hrest => exact congrArg₂ List.cons hname (ih hrest)
    | value hname _ hrest => exact congrArg₂ List.cons hname (ih hrest)
    | signature _ hrest => exact (ih hrest :)
    | unsupported hrest => exact (ih hrest :)

theorem supported_aligned (h : AlignedDecls decls decls') :
    (∀ decl ∈ decls, Supported decl) ↔ ∀ decl ∈ decls', Supported decl := by
  induction decls generalizing decls' with
  | nil =>
    cases h
    rfl
  | cons decl rest ih =>
    cases h <;>
    · rename_i hrest
      rw [List.forall_mem_cons, List.forall_mem_cons, ih hrest]
      rfl

theorem declNames_reordered (hperm : decls.Perm middle) (hdecls : AlignedDecls middle decls') :
    (declNames decls).Perm (declNames decls') :=
  declNames_aligned hdecls ▸ declNames_perm hperm

theorem bindable_reordered (hperm : decls.Perm middle) (hdecls : AlignedDecls middle decls') :
    Bindable decls ↔ Bindable decls' := by
  refine and_congr (declNames_reordered hperm hdecls).nodup_iff ?_
  rw [← supported_aligned hdecls]
  exact forall_congr' fun decl => imp_congr_left hperm.mem_iff

theorem within_of_perm {names names'} (h : names.Perm names') (bound : String → Prop) :
    Within names bound = Within names' bound := by
  funext name
  exact propext (or_congr_left h.mem_iff)

theorem acceptsBlock_of_perm {bound} (h : decls.Perm decls') :
    AcceptsBlock options bound decls ↔ AcceptsBlock options bound decls' := by
  induction h with
  | nil => rfl
  | cons decl _ ih => cases decl <;> simp [AcceptsBlock, ih]
  | swap decl other rest =>
    cases decl <;> cases other <;> simp [AcceptsBlock, and_left_comm]
  | trans _ _ ih ih' => exact ih.trans ih'

theorem paramKeys_of_sameNames {params params' : List Ident} (h : SameNames params params')
    (index : Nat) : paramKeys index params = paramKeys index params' := by
  induction params generalizing params' index with
  | nil =>
    rw [SameNames, List.map_nil, eq_comm, List.map_eq_nil_iff] at h
    rw [h]
  | cons param rest ih =>
    cases params' with
    | nil => cases h
    | cons param' rest' =>
      simp only [SameNames, List.map_cons, List.cons.injEq] at h
      simp only [paramKeys, paramKey, h.1, ih h.2]

mutual

/-- An expression can be lowered in one order of its declarations if it can be in the other. -/
theorem accepts_reordered {options bound e e'} :
    e.Reordered e' → (Accepts options bound e ↔ Accepts options bound e')
  | .var h => by simp [Accepts, h]
  | .con _ => .rfl
  | .lit => .rfl
  | .binOp hop hl hr => by simp [Accepts, hop, accepts_reordered hl, accepts_reordered hr]
  | .neg h => by simp [Accepts, accepts_reordered h]
  | .app hf ha => by simp [Accepts, accepts_reordered hf, accepts_reordered ha]
  | .cond hc ht he => by
    simp [Accepts, accepts_reordered hc, accepts_reordered ht, accepts_reordered he]
  | .letIn hperm hdecls he => by
    simp only [Accepts, bindable_reordered hperm hdecls,
      within_of_perm (declNames_reordered hperm hdecls), acceptsBlock_of_perm hperm,
      acceptsBlock_aligned hdecls, accepts_reordered he]
  | .lambda hparams he => by
    simp [Accepts, paramKeys_of_sameNames hparams, accepts_reordered he]
  | .caseOf _ => .rfl
  | .doBlock => .rfl
  | .tuple _ => .rfl
  | .list _ => .rfl

theorem acceptsBlock_aligned {options bound decls decls'} :
    AlignedDecls decls decls' →
      (AcceptsBlock options bound decls ↔ AcceptsBlock options bound decls')
  | .nil => .rfl
  | .function _ hparams h hrest => by
    simp [AcceptsBlock, paramKeys_of_sameNames hparams, accepts_reordered h,
      acceptsBlock_aligned hrest]
  | .value _ h hrest => by simp [AcceptsBlock, accepts_reordered h, acceptsBlock_aligned hrest]
  | .signature _ hrest => by simp [AcceptsBlock, acceptsBlock_aligned hrest]
  | .unsupported hrest => by simp [AcceptsBlock, acceptsBlock_aligned hrest]

end

theorem acceptsModule_reordered {tree tree' : Surface.Module} (h : tree.Reordered tree') :
    AcceptsModule options tree.decls ↔ AcceptsModule options tree'.decls := by
  obtain ⟨middle, hperm, hdecls⟩ := h.decls
  simp only [AcceptsModule, bindable_reordered hperm hdecls,
    within_of_perm (declNames_reordered hperm hdecls), acceptsBlock_of_perm hperm,
    acceptsBlock_aligned hdecls]

/-! ## Options -/

/-- The same names are in scope but for operators, and the same operators can be used. -/
structure SameKnown (options options' : LowerOptions) (bound bound' : String → Prop) : Prop where
  plain : ∀ name, isOperatorName name = false → (bound name ↔ bound' name)
  operator : ∀ name, OperatorKnown options bound name ↔ OperatorKnown options' bound' name

section

variable {options' : LowerOptions} {bound bound' : String → Prop}

theorem SameKnown.within (h : SameKnown options options' bound bound') (names : List String) :
    SameKnown options options' (Within names bound) (Within names bound') where
  plain name hname := or_congr_right (h.plain name hname)
  operator name := by
    have hknown := h.operator name
    simp only [OperatorKnown, Within, or_assoc] at hknown ⊢
    rw [hknown]

end

mutual

theorem accepts_known {options options' bound bound'} (h : SameKnown options options' bound bound')
    :
    (e : Expr) → (Accepts options bound e ↔ Accepts options' bound' e)
  | .var id => by
    unfold Accepts
    split
    · exact h.operator id.name
    · rename_i hname
      exact h.plain id.name (Bool.not_eq_true _ ▸ hname)
  | .neg e _ => accepts_known h e
  | .binOp op l r _ =>
    and_congr (h.operator op.name) (and_congr (accepts_known h l) (accepts_known h r))
  | .app f a _ => and_congr (accepts_known h f) (accepts_known h a)
  | .cond c t e _ =>
    and_congr (accepts_known h c) (and_congr (accepts_known h t) (accepts_known h e))
  | .letIn decls e _ =>
    and_congr_right' (and_congr (acceptsBlock_known (h.within _) decls)
      (accepts_known (h.within _) e))
  | .lambda _ e _ => and_congr_right' (accepts_known (h.within _) e)
  | .con _ | .lit .. | .caseOf .. | .doBlock _ | .tuple .. | .list .. => .rfl

theorem acceptsBlock_known {options options' bound bound'}
    (h : SameKnown options options' bound bound') :
    (decls : List Decl) → (AcceptsBlock options bound decls ↔ AcceptsBlock options' bound' decls)
  | [] => .rfl
  | .function _ _ e _ :: rest =>
    and_congr (and_congr_right' (accepts_known (h.within _) e)) (acceptsBlock_known h rest)
  | .value _ e _ :: rest => and_congr (accepts_known h e) (acceptsBlock_known h rest)
  | .signature .. :: rest => acceptsBlock_known h rest
  | .unsupported .. :: rest => acceptsBlock_known h rest

end

/-- If operators that nothing binds name intrinsics, it does not matter whether the prelude binds
them. -/
theorem acceptsModule_operators (options : LowerOptions) (hcatalog : options.strict = false) :
    AcceptsModule { options with preludeOperators := true } decls ↔
      AcceptsModule { options with preludeOperators := false } decls := by
  have hsubset : (Lowering.preludeNames false).map (·.2) ⊆ (Lowering.preludeNames true).map (·.2) := by
    decide
  have hmore : ∀ name ∈ (Lowering.preludeNames true).map (·.2),
      name ∈ (Lowering.preludeNames false).map (·.2) ∨
        isOperatorName name = true ∧ (Intrinsic.ofSourceName? name).isSome := by
    decide
  refine and_congr_right' (acceptsBlock_known (SameKnown.within ⟨?_, ?_⟩ _) decls)
  · intro name hname
    refine ⟨fun hmem => (hmore name hmem).resolve_right ?_, fun hmem => hsubset hmem⟩
    simp [hname]
  · intro name
    refine ⟨?_, Or.imp_left fun hmem => hsubset hmem⟩
    rintro (hmem | hknown)
    · exact (hmore name hmem).imp_right fun hop => ⟨hcatalog, hop.2⟩
    · exact .inr hknown

end Lamina.Core
