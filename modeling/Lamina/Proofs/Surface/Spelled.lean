import Lamina.Surface.Stream

/-!
# Trees that a text can have

What the parser promises about its trees and lowering relies on: a function has a parameter, and no
name has the form under which wildcards are bound. The names come from the tokens of the text.
-/

namespace Lamina.Surface

variable {rest : List (Located Token)} {token : Located Token} {s : Stream}

/-- A name that a text can spell: none that a wildcard parameter is bound to. -/
def SourceName (name : String) : Prop := ¬ ['_', '@'] <+: name.toList

theorem wildcard_not_sourceName (index : Nat) : ¬ SourceName ("_@" ++ toString index) := by
  intro h
  apply h
  rw [String.toList_append]
  exact List.prefix_append _ _

/-- A list of parameters that a text can have. -/
structure FormedParams (params : List Ident) : Prop where
  ne_nil : params ≠ []
  names : ∀ param ∈ params, SourceName param.name

mutual

/-- An expression that a text can have. Nothing is asked of what lowering refuses. -/
def Expr.Formed : Expr → Prop
  | .var id => SourceName id.name
  | .binOp op lhs rhs _ => SourceName op.name ∧ lhs.Formed ∧ rhs.Formed
  | .neg arg _ => arg.Formed
  | .app func arg _ => func.Formed ∧ arg.Formed
  | .cond test onTrue onFalse _ => test.Formed ∧ onTrue.Formed ∧ onFalse.Formed
  | .letIn decls body _ => FormedDecls decls ∧ body.Formed
  | .lambda params body _ => FormedParams params ∧ body.Formed
  | _ => True

/-- Declarations that a text can have. -/
def FormedDecls : List Decl → Prop
  | [] => True
  | .function _ params body _ :: rest => (FormedParams params ∧ body.Formed) ∧ FormedDecls rest
  | .value _ body _ :: rest => body.Formed ∧ FormedDecls rest
  | _ :: rest => FormedDecls rest

end

/-- A declaration that a text can have. -/
def Decl.Formed : Decl → Prop
  | .function _ params body _ => FormedParams params ∧ body.Formed
  | .value _ body _ => body.Formed
  | _ => True

theorem formedDecls_cons {decl rest} (h : decl.Formed) (hrest : FormedDecls rest) :
    FormedDecls (decl :: rest) := by
  cases decl with
  | function name params body span => exact ⟨h, hrest⟩
  | value name body span => exact ⟨h, hrest⟩
  | signature names span => exact hrest
  | unsupported what span => exact hrest

/-! ## Tokens -/

/-- A token whose name, if it has one, a text can spell. -/
def PlainToken : Token → Prop
  | .varId name => SourceName name
  | .op name => SourceName name
  | _ => True

/-- Tokens whose names a text can spell. -/
def PlainTokens (tokens : List (Located Token)) : Prop := ∀ token ∈ tokens, PlainToken token.value

theorem PlainTokens.tail (h : PlainTokens (token :: rest)) : PlainTokens rest :=
  fun other hother => h other (List.mem_cons_of_mem token hother)

theorem PlainTokens.head (h : PlainTokens (token :: rest)) :
    PlainToken token.value := h token List.mem_cons_self

theorem PlainTokens.nil : PlainTokens [] := nofun

theorem PlainTokens.cons (h : PlainToken token.value) (hrest : PlainTokens rest) :
    PlainTokens (token :: rest) :=
  List.forall_mem_cons.mpr ⟨h, hrest⟩

theorem PlainTokens.append {first second} (h : PlainTokens first) (h' : PlainTokens second) :
    PlainTokens (first ++ second) :=
  List.forall_mem_append.mpr ⟨h, h'⟩

theorem PlainTokens.peek (h : PlainTokens s.rest) : PlainToken s.peek := by
  obtain ⟨prev, _ | ⟨token, rest⟩⟩ := s
  · trivial
  · exact h.head

/-- The names of operators are names that a text can spell. -/
theorem PlainTokens.operator (h : PlainTokens s.rest) {op width}
    (hop : s.operator? = some (op, width)) : SourceName op.name := by
  unfold Stream.operator? at hop
  split at hop
  · rename_i hrest
    cases hop
    rw [hrest] at h
    exact h.head
  · rename_i hrest
    cases hop
    rw [hrest] at h
    exact h.tail.head
  · cases hop

end Lamina.Surface
