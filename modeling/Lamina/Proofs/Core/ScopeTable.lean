import Lamina.Proofs.Core.Built

/-!
# The scopes of a text

Which scopes a text opens, and where, can be read off its syntax tree: a module, each `let` and each
function has one, inside that of the place where it is written. The scopes of a graph that was built
for the text are those of this table (`BuiltModule.drawn`).
-/

namespace Lamina.Core

open Lamina.Surface (Ident Expr Decl)

/-- A scope as the text has it. -/
structure WrittenScope where
  kind : ScopeKind
  /-- The scope around it. -/
  parent : Option ScopeId
  /-- The parameters that it binds, if it is the scope of a function. -/
  params : List Ident

mutual

/-- A table of scopes with those that an expression opens, if it stands in the scope `inside`. The
id of a scope is its place in the table. -/
def exprScopes (inside : ScopeId) (table : List WrittenScope) : Expr → List WrittenScope
  | .neg arg _ => exprScopes inside table arg
  | .binOp _ lhs rhs _ => exprScopes inside (exprScopes inside table lhs) rhs
  | .app func arg _ => exprScopes inside (exprScopes inside table func) arg
  | .cond test onTrue onFalse _ =>
    exprScopes inside (exprScopes inside (exprScopes inside table test) onTrue) onFalse
  | .letIn decls body _ =>
    let inner := table.length
    exprScopes inner (blockScopes inner (table ++ [⟨.letScope, some inside, []⟩]) decls) body
  | .lambda params body _ =>
    exprScopes table.length (table ++ [⟨.paramScope, some inside, params⟩]) body
  | _ => table

/-- A table of scopes with those that the declarations of a block open. -/
def blockScopes (inside : ScopeId) (table : List WrittenScope) : List Decl → List WrittenScope
  | .function _ params body _ :: rest =>
    let opened := table ++ [⟨.paramScope, some inside, params⟩]
    blockScopes inside (exprScopes table.length opened body) rest
  | .value _ body _ :: rest => blockScopes inside (exprScopes inside table body) rest
  | _ :: rest => blockScopes inside table rest
  | [] => table

end

/-- The scopes of a module: the prelude, the module inside it, and those of its declarations. -/
def moduleScopes (decls : List Decl) : List WrittenScope :=
  blockScopes 1 [⟨.preludeScope, none, []⟩, ⟨.moduleScope, some 0, []⟩] decls

/-- A scope is as the text has it. If it is that of a function, it binds the parameters in order. -/
structure Written (m : Module) (id : ScopeId) (written : WrittenScope) : Prop where
  kind : m.scopes.kind id = written.kind
  parent : m.scopes.parent id = written.parent
  keys : written.kind = .paramScope →
    (m.scopes.bindings id).map (·.1) = paramKeys 0 written.params
  params : written.kind = .paramScope → written.params ≠ []

/-- The scopes up to `high` are those of a table. -/
structure Drawn (m : Module) (high : Nat) (table : List WrittenScope) : Prop where
  size : table.length = high
  written : ∀ {id : Nat} {written : WrittenScope}, table[id]? = some written → Written m id written

section

variable {m : Module}

/-- One more scope. -/
theorem Drawn.snoc {low table written} (h : Drawn m low table) (hlast : Written m low written) :
    Drawn m (low + 1) (table ++ [written]) := by
  refine ⟨by rw [List.length_append, h.size]; rfl, ?_⟩
  intro id other hentry
  rw [List.getElem?_append] at hentry
  split at hentry
  · exact h.written hentry
  · rw [List.getElem?_singleton] at hentry
    split at hentry
    · cases hentry
      rwa [show id = low by rw [← h.size]; omega]
    · cases hentry

theorem Drawn.letScope {low table kind inside} (h : Drawn m low table)
    (hinner : m.scopes.Inner kind inside low) (hkind : kind ≠ .paramScope) :
    Drawn m (low + 1) (table ++ [⟨kind, some inside, []⟩]) :=
  h.snoc ⟨hinner.kind, hinner.parent, fun hparams => absurd hparams hkind,
    fun hparams => absurd hparams hkind⟩

mutual

/-- The scopes that were made for an expression are those that it opens. -/
theorem Built.drawn {first last low high inside names e kind table} (hdrawn : Drawn m low table) :
    Built m first last low high inside names e kind → Drawn m high (exprScopes inside table e)
  | .var _ | .con | .lit => by
    unfold exprScopes
    exact hdrawn
  | .neg _ harg => by
    unfold exprScopes
    exact harg.drawn hdrawn
  | .binOp _ hlhs _ hrhs => by
    unfold exprScopes
    exact hrhs.drawn (hlhs.drawn hdrawn)
  | .app hfunc harg => by
    unfold exprScopes
    exact harg.drawn (hfunc.drawn hdrawn)
  | .cond htest htrue hfalse => by
    unfold exprScopes
    exact hfalse.drawn (htrue.drawn (htest.drawn hdrawn))
  | .letIn hinner _ _ hblock hbody => by
    unfold exprScopes
    have hopened := hdrawn.letScope hinner nofun
    rw [hdrawn.size]
    exact hbody.drawn (hblock.drawn hopened)
  | .lambda h => by
    unfold exprScopes
    exact h.drawn hdrawn

theorem BuiltLambda.drawn {first last low high inside names params e kind table}
    (hdrawn : Drawn m low table) :
    BuiltLambda m first last low high inside names params e kind →
      Drawn m high (exprScopes table.length (table ++ [⟨.paramScope, some inside, params⟩]) e)
  | .mk hne hinner hparams _ _ hbody => by
    rw [hdrawn.size]
    exact hbody.drawn (hdrawn.snoc
      ⟨hinner.kind, hinner.parent, fun _ => hparams.keys, fun _ => hne⟩)

theorem BuiltBlock.drawn {first last low high inside names decls frame table}
    (hdrawn : Drawn m low table) :
    BuiltBlock m first last low high inside names decls frame →
      Drawn m high (blockScopes inside table decls)
  | .nil => by
    unfold blockScopes
    exact hdrawn
  | .function hnode hrest => by
    unfold blockScopes
    exact hrest.drawn (hnode.drawn hdrawn)
  | .value hnode hrest => by
    unfold blockScopes
    exact hrest.drawn (hnode.drawn hdrawn)
  | .signature hrest => by
    unfold blockScopes
    exact hrest.drawn hdrawn

end

theorem BuiltModule.drawn {operators tree} (h : BuiltModule m operators tree) :
    Drawn m m.scopes.scopes.size (moduleScopes tree.decls) := by
  obtain ⟨_, _, _, hblock⟩ := h.definitions
  have hempty : Drawn m 0 [] := ⟨rfl, nofun⟩
  have hroot : Drawn m 1 [⟨.preludeScope, none, []⟩] :=
    hempty.snoc ⟨h.rootKind, h.rootParent, nofun, nofun⟩
  rw [h.top] at hblock
  exact hblock.drawn (hroot.letScope h.inner nofun)

/-- A scope of parameters is in the table. -/
theorem Drawn.written_of_params {table scope} (h : Drawn m m.scopes.scopes.size table)
    (hkind : m.scopes.kind scope = .paramScope) :
    ∃ written, written.kind = .paramScope ∧ Written m scope written := by
  have hlt : scope < table.length := by
    rw [h.size]
    refine Nat.lt_of_not_le fun hle => ?_
    rw [ScopeTree.kind, Array.getElem?_eq_none hle] at hkind
    cases hkind
  have hwritten := h.written (List.getElem?_eq_getElem hlt)
  exact ⟨_, hwritten.kind.symm.trans hkind, hwritten⟩

theorem Drawn.bindings_ne_nil {table scope} (h : Drawn m m.scopes.scopes.size table)
    (hkind : m.scopes.kind scope = .paramScope) : m.scopes.bindings scope ≠ [] := by
  obtain ⟨written, hparams, hwritten⟩ := h.written_of_params hkind
  intro hnil
  have hkeys := hwritten.keys hparams
  rw [hnil] at hkeys
  cases hlist : written.params with
  | nil => exact hwritten.params hparams hlist
  | cons param rest =>
    rw [hlist] at hkeys
    cases hkeys

end

end Lamina.Core
