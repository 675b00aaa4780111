import Lamina.Proofs.Core.State

/-!
# Strict lowering

Lowering that is not strict does what strict lowering does wherever that succeeds.
-/

namespace Lamina.Core.Lowering

open Lamina.Surface (Ident Expr Decl)

theorem ok_of_run_bind {α β x} {f : α → LowerM β} {st st'' b} (h : (x >>= f) st = (.ok b, st'')) :
    ∃ a st', x st = (.ok a, st') ∧ f a st' = (.ok b, st'') := by
  simp only [Bind.bind, ExceptT.bind, ExceptT.mk, StateT.bind] at h
  rcases hx : x st with ⟨e | a, st'⟩
  · rw [hx] at h
    cases h
  · rw [hx] at h
    exact ⟨a, st', rfl, h⟩

/-- Where the first action succeeds, the second one does the same. -/
def Refines {α : Type} (x y : LowerM α) : Prop :=
  ∀ st st' a, x st = (.ok a, st') → y st = (.ok a, st')

namespace Refines

variable {α β : Type} {x y : LowerM α}

theorem refl (x : LowerM α) : Refines x x := fun _ _ _ => id

theorem bind {f g : α → LowerM β} (h : Refines x y) (hnext : ∀ a, Refines (f a) (g a)) :
    Refines (x >>= f) (y >>= g) := by
  intro st st' b hrun
  obtain ⟨a, middle, hx, hf⟩ := ok_of_run_bind hrun
  simp only [Bind.bind, ExceptT.bind, ExceptT.mk, StateT.bind, h _ _ _ hx]
  exact hnext a _ _ _ hf

theorem child {x y} (h : Refines x y) : Refines (child x) (child y) :=
  h.bind fun _ => .refl _

theorem lambda {body body'} (h : ∀ inner, Refines (body inner) (body' inner)) (scope : ScopeId)
    (params : List Ident) :
    Refines (Lowering.lambda scope params body) (Lowering.lambda scope params body') :=
  .bind (.refl _) fun inner => .bind (.refl _) fun _ => .bind (child (h inner)) fun _ => .refl _

end Refines

variable (options : LowerOptions)

/-- An operator that is bound is a reference either way. -/
theorem operator_refines (scope : ScopeId) (id : Ident) :
    Refines (operator { options with strict := true } scope id)
      (operator { options with strict := false } scope id) := by
  refine .bind (.refl _) fun now => ?_
  cases now.scopes.lookup scope id.name with
  | some target => exact .refl _
  | none => exact nofun

mutual

theorem expr_refines (scope : ScopeId) :
    (e : Expr) → Refines (expr { options with strict := true } scope e)
      (expr { options with strict := false } scope e)
  | .var id => by
    unfold expr
    split
    · exact operator_refines options scope id
    · exact .refl _
  | .neg arg span => by
    unfold expr
    exact .bind (.refl _) fun _ => .bind (.child (expr_refines scope arg)) fun _ => .refl _
  | .binOp op lhs rhs span => by
    unfold expr
    exact .bind (operator_refines options scope op) fun _ => .bind (.refl _) fun _ =>
      .bind (.child (expr_refines scope lhs)) fun _ => .bind (.refl _) fun _ =>
        .bind (.child (expr_refines scope rhs)) fun _ => .refl _
  | .app func arg span => by
    unfold expr
    exact .bind (.child (expr_refines scope func)) fun _ =>
      .bind (.child (expr_refines scope arg)) fun _ => .refl _
  | .cond test onTrue onFalse span => by
    unfold expr
    exact .bind (.child (expr_refines scope test)) fun _ =>
      .bind (.child (expr_refines scope onTrue)) fun _ =>
        .bind (.child (expr_refines scope onFalse)) fun _ => .refl _
  | .letIn decls body span => by
    unfold expr
    exact .bind (.refl _) fun inner => .bind (.refl _) fun slots =>
      .bind (fillBlock_refines inner decls slots) fun _ =>
        .bind (expr_refines inner body) fun _ => .refl _
  | .lambda params body span => by
    unfold expr
    exact .lambda (fun inner => expr_refines inner body) scope params
  | .con .. | .lit .. | .caseOf .. | .doBlock _ | .tuple .. | .list .. => by
    unfold expr
    exact .refl _

theorem fillBlock_refines (scope : ScopeId) :
    (decls : List Decl) → (slots : List (Option NodeId)) →
      Refines (fillBlock { options with strict := true } scope decls slots)
        (fillBlock { options with strict := false } scope decls slots)
  | .function _ params body _ :: rest, some slot :: slots => by
    unfold fillBlock
    exact .bind (.lambda (fun inner => expr_refines inner body) scope params) fun _ =>
      .bind (.refl _) fun _ => fillBlock_refines scope rest slots
  | .value _ body _ :: rest, some slot :: slots => by
    unfold fillBlock
    exact .bind (expr_refines scope body) fun _ =>
      .bind (.refl _) fun _ => fillBlock_refines scope rest slots
  | .function .. :: rest, none :: slots => fillBlock_refines scope rest slots
  | .value .. :: rest, none :: slots => fillBlock_refines scope rest slots
  | .signature .. :: rest, _ :: slots => fillBlock_refines scope rest slots
  | .unsupported .. :: rest, _ :: slots => fillBlock_refines scope rest slots
  | [], _ => .refl _
  | decl :: _, [] => by cases decl <;> exact .refl _

end

/-- A module that strict lowering makes is made without strictness too. -/
theorem lowerModule_of_strict {tree m}
    (h : (lowerModule { options with strict := true } tree).1 = .ok m) :
    (lowerModule { options with strict := false } tree).1 = .ok m := by
  have hprogram : Refines (program { options with strict := true } tree)
      (program { options with strict := false } tree) :=
    .bind (.refl _) fun _ => .bind (.refl _) fun _ => .bind (.refl _) fun top =>
      .bind (.refl _) fun slots => .bind (fillBlock_refines options top tree.decls slots) fun _ =>
        .refl _
  have hrun : program { options with strict := true } tree initial =
      (.ok m, (program { options with strict := true } tree initial).2) := Prod.ext h rfl
  exact congrArg Prod.fst (hprogram _ _ _ hrun)

end Lamina.Core.Lowering
