import Lamina.Core.Graph
import Lamina.Text.Span

/-!
# Syntax trees

The tree of a source text. It has every construct that the parser understands, also those that
are refused later, so that a refusal can name the construct and its place.
-/

namespace Lamina.Surface

/-- A name and where it stands. -/
structure Ident where
  name : String
  span : Span
deriving DecidableEq, Inhabited, Repr

/-- Declarations that are recognised but not supported. -/
inductive UnsupportedDecl
  | dataDecl | typeSynonym | newtypeDecl | classDecl | instanceDecl | importDecl | fixityDecl
  | defaultDecl | foreignDecl
deriving DecidableEq, Inhabited, Repr

/-- How messages name an unsupported declaration. -/
def UnsupportedDecl.text : UnsupportedDecl → String
  | dataDecl => "data declaration"
  | typeSynonym => "type synonym"
  | newtypeDecl => "newtype declaration"
  | classDecl => "class declaration"
  | instanceDecl => "instance declaration"
  | importDecl => "import"
  | fixityDecl => "fixity declaration"
  | defaultDecl => "default declaration"
  | foreignDecl => "foreign declaration"

mutual

/-- An expression. -/
inductive Expr
  | var (id : Ident)
  /-- A constructor; the unit value is the constructor `()`. -/
  | con (id : Ident)
  | lit (value : Core.Literal) (span : Span)
  | binOp (op : Ident) (lhs rhs : Expr) (span : Span)
  /-- Prefix minus. -/
  | neg (arg : Expr) (span : Span)
  | app (func arg : Expr) (span : Span)
  | cond (test onTrue onFalse : Expr) (span : Span)
  | letIn (decls : List Decl) (body : Expr) (span : Span)
  | lambda (params : List Ident) (body : Expr) (span : Span)
  | caseOf (scrutinee : Expr) (span : Span)
  | doBlock (span : Span)
  | tuple (elems : List Expr) (span : Span)
  | list (elems : List Expr) (span : Span)

/-- A declaration of a block. -/
inductive Decl
  /-- A binding with at least one parameter. -/
  | function (name : Ident) (params : List Ident) (body : Expr) (span : Span)
  | value (name : Ident) (body : Expr) (span : Span)
  /-- A type signature. The type is not kept. -/
  | signature (names : List Ident) (span : Span)
  | unsupported (what : UnsupportedDecl) (span : Span)

end

instance : Inhabited Expr := ⟨.doBlock default⟩
instance : Inhabited Decl := ⟨.signature [] default⟩

/-- Where an expression stands. -/
def Expr.span : Expr → Span
  | var id => id.span
  | con id => id.span
  | lit _ span => span
  | binOp _ _ _ span => span
  | neg _ span => span
  | app _ _ span => span
  | cond _ _ _ span => span
  | letIn _ _ span => span
  | lambda _ _ span => span
  | caseOf _ span => span
  | doBlock span => span
  | tuple _ span => span
  | list _ span => span

/-- How messages name a kind of expression. -/
def Expr.describe : Expr → String
  | var _ => "variable"
  | con _ => "constructor"
  | lit .. => "literal"
  | binOp .. => "operator application"
  | neg .. => "negation"
  | app .. => "application"
  | cond .. => "conditional"
  | letIn .. => "let expression"
  | lambda .. => "lambda"
  | caseOf .. => "case expression"
  | doBlock _ => "do block"
  | tuple .. => "tuple"
  | list .. => "list literal"

/-- Where a declaration stands. -/
def Decl.span : Decl → Span
  | function _ _ _ span => span
  | value _ _ span => span
  | signature _ span => span
  | unsupported _ span => span

/-- The name that a declaration binds, if it binds one. -/
def Decl.bound? : Decl → Option Ident
  | function name .. => some name
  | value name .. => some name
  | _ => none

/-- A module: an optional header and a block of declarations. -/
structure Module where
  name : Option Ident
  exports : List Ident
  decls : List Decl
  span : Span
deriving Inhabited

end Lamina.Surface
