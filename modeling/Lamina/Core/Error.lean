import Lamina.Core.Scope
import Lamina.Text.Span

/-!
# Lowering errors

What can keep a syntax tree from becoming a core graph.
-/

namespace Lamina.Core

/-- Why a syntax tree cannot be lowered. -/
inductive LowerError
  /-- A name that nothing in scope binds; the names that are visible there come with it. -/
  | unresolved (name : String) (scope : Snapshot) (span : Span)
  | unsupported (construct : String) (span : Span)
  | duplicateDefinition (name : String) (span : Span)
  /-- A reserved node that was never given its contents. -/
  | unfilledNode (name : String)
deriving DecidableEq, Inhabited, Repr

namespace LowerError

/-- What the message of a lowering error says. -/
def message : LowerError → String
  | unresolved name scope _ => "cannot find '" ++ name ++ "' in scope (" ++ scope.text ++ ")"
  | unsupported construct _ => construct ++ " is not implemented"
  | duplicateDefinition name _ => "'" ++ name ++ "' is defined more than once in the same block"
  | unfilledNode name => "internal error: node for '" ++ name ++ "' was never filled in"

/-- The stable code of a lowering error. -/
def code : LowerError → String
  | unresolved .. => "E0100"
  | unsupported .. => "E0101"
  | duplicateDefinition .. => "E0102"
  | unfilledNode .. => "E0104"

/-- Where a lowering error points. -/
def span? : LowerError → Option Span
  | unresolved _ _ span => some span
  | unsupported _ span => some span
  | duplicateDefinition _ span => some span
  | unfilledNode _ => none

end LowerError

end Lamina.Core
