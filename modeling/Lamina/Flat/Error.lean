import Lamina.Core.Graph

/-!
# Conversion errors

What can keep a core graph from becoming a flat program, and a flat program from becoming an
executable.
-/

namespace Lamina.Flat

/-- Why no code was made. -/
inductive ConvertError
  | uncollectedLambda (node : Core.NodeId)
  | missingEntry (name : String)
  /-- A value whose evaluation needs its own result first. -/
  | cyclicValue (name : String)
  | unboundPlaceholder (name : String)
  | unfilledNode (name : String)
  /-- The native build failed. -/
  | toolchain (detail : String)
  | format
  | io (detail : String)
deriving DecidableEq, Inhabited, Repr

namespace ConvertError

/-- What the message of a conversion error says. -/
def message : ConvertError → String
  | uncollectedLambda node =>
    "internal error: lambda node " ++ toString node ++ " was referenced but not collected"
  | missingEntry name => "no '" ++ name ++ "' binding to use as the program entry point"
  | cyclicValue name =>
    "value '" ++ name ++ "' depends on itself without passing through a function"
  | unboundPlaceholder name =>
    "internal error: parameter '" ++ name ++ "' is not in scope of the function being emitted"
  | unfilledNode name => "internal error: node for '" ++ name ++ "' was never filled in"
  | toolchain detail => "native build failed: " ++ detail
  | format => "failed to format generated code"
  | io detail => "I/O error during code generation: " ++ detail

/-- The stable code of a conversion error. -/
def code : ConvertError → String
  | uncollectedLambda .. => "E0200"
  | missingEntry .. => "E0201"
  | cyclicValue .. => "E0202"
  | unboundPlaceholder .. => "E0203"
  | unfilledNode .. => "E0204"
  | toolchain .. => "E0205"
  | format | io .. => "E0206"

end ConvertError

end Lamina.Flat
