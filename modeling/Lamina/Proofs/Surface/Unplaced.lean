import Lamina.Proofs.Surface.Beyond

/-!
# Trees and tokens without places

Two trees are the same up to spans if they are equal once every span is forgotten. From tokens
without places the parser makes the tree without places, or reports the error without its place. So
two lists of the same tokens make the same tree, up to spans, or fail alike, wherever the tokens
stand.
-/

namespace Lamina

/-- The span that stands for every other once places are forgotten. -/
def Span.nowhere : Span := .point 0

/-- A value without its place. -/
def Located.unplaced {α : Type} (x : Located α) : Located α := ⟨x.value, .nowhere⟩

/-- A syntax error without its place. -/
def SyntaxError.unplaced : SyntaxError → SyntaxError
  | .unexpectedChar ch _ => .unexpectedChar ch 0
  | .unterminatedString _ => .unterminatedString 0
  | .invalidEscape ch _ => .invalidEscape ch 0
  | .unterminatedComment _ => .unterminatedComment 0
  | .integerOverflow text _ => .integerOverflow text .nowhere
  | .unexpectedToken expected found _ => .unexpectedToken expected found .nowhere
  | .unexpectedEnd context => .unexpectedEnd context
  | .unsupportedPattern _ => .unsupportedPattern .nowhere
  | .unsupportedSection op _ => .unsupportedSection op .nowhere
  | .nonAssociative op _ => .nonAssociative op .nowhere

namespace Surface

/-- A name without its place. -/
def Ident.unplaced (id : Ident) : Ident := ⟨id.name, .nowhere⟩

mutual

/-- An expression without places. -/
def Expr.unplaced : Expr → Expr
  | .var id => .var id.unplaced
  | .con id => .con id.unplaced
  | .lit value _ => .lit value .nowhere
  | .binOp op lhs rhs _ => .binOp op.unplaced lhs.unplaced rhs.unplaced .nowhere
  | .neg arg _ => .neg arg.unplaced .nowhere
  | .app func arg _ => .app func.unplaced arg.unplaced .nowhere
  | .cond test onTrue onFalse _ =>
    .cond test.unplaced onTrue.unplaced onFalse.unplaced .nowhere
  | .letIn decls body _ => .letIn (unplacedDecls decls) body.unplaced .nowhere
  | .lambda params body _ => .lambda (params.map Ident.unplaced) body.unplaced .nowhere
  | .caseOf scrutinee _ => .caseOf scrutinee.unplaced .nowhere
  | .doBlock _ => .doBlock .nowhere
  | .tuple elems _ => .tuple (unplacedExprs elems) .nowhere
  | .list elems _ => .list (unplacedExprs elems) .nowhere

/-- A declaration without places. -/
def Decl.unplaced : Decl → Decl
  | .function name params body _ =>
    .function name.unplaced (params.map Ident.unplaced) body.unplaced .nowhere
  | .value name body _ => .value name.unplaced body.unplaced .nowhere
  | .signature names _ => .signature (names.map Ident.unplaced) .nowhere
  | .unsupported what _ => .unsupported what .nowhere

/-- Expressions without places. -/
def unplacedExprs : List Expr → List Expr
  | [] => []
  | elem :: rest => elem.unplaced :: unplacedExprs rest

/-- Declarations without places. -/
def unplacedDecls : List Decl → List Decl
  | [] => []
  | decl :: rest => decl.unplaced :: unplacedDecls rest

end

/-- A module without places. -/
def Module.unplaced (m : Module) : Module :=
  ⟨m.name.map Ident.unplaced, m.exports.map Ident.unplaced, unplacedDecls m.decls, .nowhere⟩

@[simp]
theorem Expr.span_unplaced (e : Expr) : e.unplaced.span = .nowhere := by
  cases e <;> rfl

theorem unplacedExprs_eq_map (elems : List Expr) : unplacedExprs elems = elems.map Expr.unplaced := by
  induction elems with
  | nil => rfl
  | cons elem rest ih => rw [unplacedExprs, ih, List.map_cons]

theorem unplacedDecls_eq_map (decls : List Decl) : unplacedDecls decls = decls.map Decl.unplaced := by
  induction decls with
  | nil => rfl
  | cons decl rest ih => rw [unplacedDecls, ih, List.map_cons]

/-- Places are forgotten. -/
def View.unplaced : View where
  span _ := .nowhere
  expr := Expr.unplaced
  decl := Decl.unplaced
  error := SyntaxError.unplaced
  start := rfl
  exprSpan := Expr.span_unplaced
  letIn decls body _ := congrArg (Expr.letIn · body.unplaced .nowhere) (unplacedDecls_eq_map decls)
  lambda _ _ _ := rfl
  tuple elems _ := congrArg (Expr.tuple · .nowhere) (unplacedExprs_eq_map elems)
  list elems _ := congrArg (Expr.list · .nowhere) (unplacedExprs_eq_map elems)
  function _ _ _ _ := rfl
  signature _ _ := rfl

theorem View.module_unplaced (m : Module) : View.unplaced.module m = m.unplaced := by
  unfold Module.unplaced
  rw [unplacedDecls_eq_map]
  rfl

/-- The answer of a parser to a text, without places. -/
def unplacedResult (result : Except SyntaxError Module) : Except SyntaxError Module :=
  (result.map Module.unplaced).mapError SyntaxError.unplaced

/-- The parser makes the tree without places of tokens without places. -/
theorem parseModule_unplaced (tokens : List (Located Token)) :
    parseModule (tokens.map Located.unplaced) = unplacedResult (parseModule tokens) := by
  have hstream : View.unplaced.extend [] (.ofTokens tokens) =
      .ofTokens (tokens.map Located.unplaced) := congrArg _ (List.append_nil _)
  have hanswers : Answers View.unplaced [] True _ (.ofTokens tokens) _ _ :=
    wholeModule_follows (Nat.le_refl (nestingBound tokens)) (fun _ => rfl) (.ofTokens tokens)
  rw [hstream] at hanswers
  unfold parseModule
  rw [nestingBound, List.length_map, ← nestingBound]
  generalize Parser.wholeModule (nestingBound tokens) (.ofTokens tokens) = out at hanswers
  cases hanswers with
  | @done tree _ _ h =>
    rw [h (.inl rfl)]
    exact congrArg Except.ok (View.module_unplaced tree)
  | failed h =>
    rw [h rfl]
    rfl
  | exhausted h =>
    rw [h rfl trivial]
    rfl

theorem map_unplaced (tokens : List (Located Token)) :
    tokens.map Located.unplaced = (tokens.map Located.value).map fun token => ⟨token, .nowhere⟩ := by
  rw [List.map_map]
  rfl

/-- The same tokens make the same tree, up to spans, or fail alike. -/
theorem unplacedResult_parseModule_congr {tokens tokens'}
    (h : tokens.map Located.value = tokens'.map Located.value) :
    unplacedResult (parseModule tokens) = unplacedResult (parseModule tokens') := by
  rw [← parseModule_unplaced, ← parseModule_unplaced, map_unplaced, map_unplaced, h]

end Surface

end Lamina
