import Lamina.Proofs.Surface.Formed

/-!
# The order of declarations

Two trees are the same up to the order of declarations: in every block, that of the module and those
of each `let`, the declarations may stand in any order. A `where` block is read as a `let`. Where
things stand in the text is left out of the comparison, since moving a declaration moves all that
follows it.
-/

namespace Lamina.Surface

variable {decls decls' : List Decl}

/-- Names that are the same one by one, wherever they stand. -/
def SameNames (ids ids' : List Ident) : Prop := ids.map (·.name) = ids'.map (·.name)

mutual

/-- Two expressions are the same up to the order of declarations in the blocks inside them. -/
inductive Expr.Reordered : Expr → Expr → Prop
  | var {id id'} (h : id.name = id'.name) : Expr.Reordered (.var id) (.var id')
  | con {id id'} (h : id.name = id'.name) : Expr.Reordered (.con id) (.con id')
  | lit {value span span'} : Expr.Reordered (.lit value span) (.lit value span')
  | binOp {op op' l l' r r' span span'} (hop : op.name = op'.name) (hl : l.Reordered l')
      (hr : r.Reordered r') : Expr.Reordered (.binOp op l r span) (.binOp op' l' r' span')
  | neg {e e' span span'} (h : e.Reordered e') : Expr.Reordered (.neg e span) (.neg e' span')
  | app {f f' a a' span span'} (hf : f.Reordered f') (ha : a.Reordered a') :
      Expr.Reordered (.app f a span) (.app f' a' span')
  | cond {c c' t t' e e' span span'} (hc : c.Reordered c') (ht : t.Reordered t')
      (he : e.Reordered e') : Expr.Reordered (.cond c t e span) (.cond c' t' e' span')
  | letIn {decls middle decls' e e' span span'} (hperm : decls.Perm middle)
      (hdecls : AlignedDecls middle decls') (he : e.Reordered e') :
      Expr.Reordered (.letIn decls e span) (.letIn decls' e' span')
  | lambda {params params' e e' span span'} (hparams : SameNames params params')
      (he : e.Reordered e') : Expr.Reordered (.lambda params e span) (.lambda params' e' span')
  | caseOf {e e' span span'} (h : e.Reordered e') :
      Expr.Reordered (.caseOf e span) (.caseOf e' span')
  | doBlock {span span'} : Expr.Reordered (.doBlock span) (.doBlock span')
  | tuple {elems elems' span span'} (h : AlignedExprs elems elems') :
      Expr.Reordered (.tuple elems span) (.tuple elems' span')
  | list {elems elems' span span'} (h : AlignedExprs elems elems') :
      Expr.Reordered (.list elems span) (.list elems' span')

/-- Expressions in order, each of them the same up to the order inside it. -/
inductive AlignedExprs : List Expr → List Expr → Prop
  | nil : AlignedExprs [] []
  | cons {e e' rest rest'} (h : e.Reordered e') (hrest : AlignedExprs rest rest') :
      AlignedExprs (e :: rest) (e' :: rest')

/-- Declarations in order, each of them the same up to the order inside it. -/
inductive AlignedDecls : List Decl → List Decl → Prop
  | nil : AlignedDecls [] []
  | function {name name' params params' e e' span span' rest rest'} (hname : name.name = name'.name)
      (hparams : SameNames params params') (h : e.Reordered e') (hrest : AlignedDecls rest rest') :
      AlignedDecls (.function name params e span :: rest)
        (.function name' params' e' span' :: rest')
  | value {name name' e e' span span' rest rest'} (hname : name.name = name'.name)
      (h : e.Reordered e') (hrest : AlignedDecls rest rest') :
      AlignedDecls (.value name e span :: rest) (.value name' e' span' :: rest')
  | signature {ids ids' span span' rest rest'} (hids : SameNames ids ids')
      (hrest : AlignedDecls rest rest') :
      AlignedDecls (.signature ids span :: rest) (.signature ids' span' :: rest')
  | unsupported {what span span' rest rest'} (hrest : AlignedDecls rest rest') :
      AlignedDecls (.unsupported what span :: rest) (.unsupported what span' :: rest')

end

/-- Two modules are the same up to the order of declarations in their blocks. -/
structure Module.Reordered (tree tree' : Module) : Prop where
  name : tree.name.map (·.name) = tree'.name.map (·.name)
  exports : SameNames tree.exports tree'.exports
  decls : ∃ middle, tree.decls.Perm middle ∧ AlignedDecls middle tree'.decls

/-! ## Reversing -/

mutual

/-- An expression with the declarations of each block inside it in reverse. -/
def Expr.reversed : Expr → Expr
  | .var id => .var id
  | .con id => .con id
  | .lit value span => .lit value span
  | .binOp op l r span => .binOp op l.reversed r.reversed span
  | .neg e span => .neg e.reversed span
  | .app f a span => .app f.reversed a.reversed span
  | .cond c t e span => .cond c.reversed t.reversed e.reversed span
  | .letIn decls e span => .letIn (reversedDecls decls).reverse e.reversed span
  | .lambda params e span => .lambda params e.reversed span
  | .caseOf e span => .caseOf e.reversed span
  | .doBlock span => .doBlock span
  | .tuple elems span => .tuple (reversedExprs elems) span
  | .list elems span => .list (reversedExprs elems) span

/-- Each expression with its blocks in reverse. -/
def reversedExprs : List Expr → List Expr
  | [] => []
  | e :: rest => e.reversed :: reversedExprs rest

/-- Each declaration with its blocks in reverse. -/
def reversedDecls : List Decl → List Decl
  | [] => []
  | .function name params e span :: rest =>
    .function name params e.reversed span :: reversedDecls rest
  | .value name e span :: rest => .value name e.reversed span :: reversedDecls rest
  | .signature ids span :: rest => .signature ids span :: reversedDecls rest
  | .unsupported what span :: rest => .unsupported what span :: reversedDecls rest

end

/-- A module with the declarations of every block in reverse. -/
def Module.reversed (tree : Module) : Module :=
  { tree with decls := (reversedDecls tree.decls).reverse }

theorem AlignedDecls.reverseAux {decls decls' more more' : List Decl} :
    AlignedDecls decls decls' → AlignedDecls more more' →
      AlignedDecls (decls.reverseAux more) (decls'.reverseAux more')
  | .nil, hmore => hmore
  | .function hname hparams h hrest, hmore =>
    (hrest.reverseAux (.function hname hparams h hmore) :)
  | .value hname h hrest, hmore => (hrest.reverseAux (.value hname h hmore) :)
  | .signature hids hrest, hmore => (hrest.reverseAux (.signature hids hmore) :)
  | .unsupported hrest, hmore => (hrest.reverseAux (.unsupported hmore) :)

theorem AlignedDecls.reverse (h : AlignedDecls decls decls') :
    AlignedDecls decls.reverse decls'.reverse :=
  h.reverseAux .nil

mutual

theorem Expr.reordered_reversed : (e : Expr) → e.Reordered e.reversed
  | .var _ => .var rfl
  | .con _ => .con rfl
  | .lit .. => .lit
  | .binOp _ l r _ => .binOp rfl l.reordered_reversed r.reordered_reversed
  | .neg e _ => .neg e.reordered_reversed
  | .app f a _ => .app f.reordered_reversed a.reordered_reversed
  | .cond c t e _ => .cond c.reordered_reversed t.reordered_reversed e.reordered_reversed
  | .letIn decls e _ =>
    .letIn decls.reverse_perm.symm (aligned_reversedDecls decls).reverse e.reordered_reversed
  | .lambda _ e _ => .lambda rfl e.reordered_reversed
  | .caseOf e _ => .caseOf e.reordered_reversed
  | .doBlock _ => .doBlock
  | .tuple elems _ => .tuple (aligned_reversedExprs elems)
  | .list elems _ => .list (aligned_reversedExprs elems)

theorem aligned_reversedExprs : (elems : List Expr) → AlignedExprs elems (reversedExprs elems)
  | [] => .nil
  | e :: rest => .cons e.reordered_reversed (aligned_reversedExprs rest)

theorem aligned_reversedDecls : (decls : List Decl) → AlignedDecls decls (reversedDecls decls)
  | [] => .nil
  | .function _ _ e _ :: rest =>
    .function rfl rfl e.reordered_reversed (aligned_reversedDecls rest)
  | .value _ e _ :: rest => .value rfl e.reordered_reversed (aligned_reversedDecls rest)
  | .signature _ _ :: rest => .signature rfl (aligned_reversedDecls rest)
  | .unsupported _ _ :: rest => .unsupported (aligned_reversedDecls rest)

end

theorem Module.reordered_reversed (tree : Module) : tree.Reordered tree.reversed where
  name := rfl
  exports := rfl
  decls := ⟨tree.decls.reverse, tree.decls.reverse_perm.symm,
    (aligned_reversedDecls tree.decls).reverse⟩

/-! ## Trees that come from a text -/

theorem formedDecls_iff : FormedDecls decls ↔ ∀ decl ∈ decls, decl.Formed := by
  induction decls with
  | nil => simp [FormedDecls]
  | cons decl rest ih => cases decl <;> simp [FormedDecls, Decl.Formed, ih]

theorem FormedParams.of_sameNames {params params' : List Ident} (h : SameNames params params')
    (hparams : FormedParams params) : FormedParams params' where
  ne_nil := by
    rintro rfl
    exact hparams.ne_nil (List.map_eq_nil_iff.mp h)
  names := by
    intro param hparam
    obtain ⟨other, hother, heq⟩ : ∃ other ∈ params, other.name = param.name := by
      have hmem : param.name ∈ params'.map (·.name) := List.mem_map_of_mem hparam
      rw [← h] at hmem
      exact List.mem_map.mp hmem
    exact heq ▸ hparams.names other hother

mutual

/-- Whatever order its declarations have, an expression is one that a text can have. -/
theorem Expr.Reordered.formed {e e' : Expr} : e.Reordered e' → e.Formed → e'.Formed
  | .var h, hformed => by
    unfold Expr.Formed at hformed ⊢
    exact h ▸ hformed
  | .binOp hop hl hr, hformed =>
    ⟨by have := hformed.1; rwa [hop] at this, hl.formed hformed.2.1, hr.formed hformed.2.2⟩
  | .neg h, hformed => h.formed hformed
  | .app hf ha, hformed => ⟨hf.formed hformed.1, ha.formed hformed.2⟩
  | .cond hc ht he, hformed =>
    ⟨hc.formed hformed.1, ht.formed hformed.2.1, he.formed hformed.2.2⟩
  | .letIn hperm hdecls he, hformed => by
    refine ⟨hdecls.formed ?_, he.formed hformed.2⟩
    rw [formedDecls_iff]
    exact fun decl hdecl => formedDecls_iff.mp hformed.1 decl (hperm.mem_iff.mpr hdecl)
  | .lambda hparams he, hformed => ⟨hformed.1.of_sameNames hparams, he.formed hformed.2⟩
  | .con _, _ | .lit, _ | .caseOf _, _ | .doBlock, _ | .tuple _, _ | .list _, _ => trivial

theorem AlignedDecls.formed {decls decls' : List Decl} :
    AlignedDecls decls decls' → FormedDecls decls → FormedDecls decls'
  | .nil, _ => trivial
  | .function _ hparams h hrest, hformed =>
    ⟨⟨hformed.1.1.of_sameNames hparams, h.formed hformed.1.2⟩, hrest.formed hformed.2⟩
  | .value _ h hrest, hformed => ⟨h.formed hformed.1, hrest.formed hformed.2⟩
  | .signature _ hrest, hformed => hrest.formed hformed
  | .unsupported hrest, hformed => hrest.formed hformed

end

theorem Module.Reordered.formed {tree tree' : Module} (h : tree.Reordered tree')
    (hformed : FormedDecls tree.decls) : FormedDecls tree'.decls := by
  obtain ⟨middle, hperm, haligned⟩ := h.decls
  refine haligned.formed (formedDecls_iff.mpr fun decl hdecl => ?_)
  exact formedDecls_iff.mp hformed decl (hperm.mem_iff.mpr hdecl)

/-! ## Constructors -/

mutual

/-- The constructors that an expression uses. -/
def Expr.constructors : Expr → List String
  | .var _ => []
  | .con id => [id.name]
  | .lit .. => []
  | .binOp _ l r _ => l.constructors ++ r.constructors
  | .neg e _ => e.constructors
  | .app f a _ => f.constructors ++ a.constructors
  | .cond c t e _ => c.constructors ++ t.constructors ++ e.constructors
  | .letIn decls e _ => declConstructors decls ++ e.constructors
  | .lambda _ e _ => e.constructors
  | .caseOf e _ => e.constructors
  | .doBlock _ => []
  | .tuple elems _ => exprConstructors elems
  | .list elems _ => exprConstructors elems

/-- The constructors that expressions use. -/
def exprConstructors : List Expr → List String
  | [] => []
  | e :: rest => e.constructors ++ exprConstructors rest

/-- The constructors that declarations use. -/
def declConstructors : List Decl → List String
  | [] => []
  | .function _ _ e _ :: rest => e.constructors ++ declConstructors rest
  | .value _ e _ :: rest => e.constructors ++ declConstructors rest
  | _ :: rest => declConstructors rest

end

theorem mem_declConstructors_of_perm (h : decls.Perm decls') {name : String} :
    name ∈ declConstructors decls ↔ name ∈ declConstructors decls' := by
  induction h with
  | nil => rfl
  | cons decl _ ih => cases decl <;> simp [declConstructors, ih]
  | swap decl other rest =>
    cases decl <;> cases other <;> simp [declConstructors, or_left_comm]
  | trans _ _ ih ih' => exact ih.trans ih'

end Lamina.Surface
