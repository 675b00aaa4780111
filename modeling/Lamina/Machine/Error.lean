/-!
# Run-time errors

What can stop the execution of a flat program.
-/

namespace Lamina.Machine

/-- Why an execution stopped. -/
inductive RunError
  | notAClosure (found : String)
  | unsupportedArity (arity : Nat)
  | arityMismatch (expected found : Nat)
  | divisionByZero
  | typeMismatch (operation expected found : String)
  /-- More calls were active at once than the limit allows. -/
  | stackOverflow (limit : Nat)
  | undefinedVariable (name : String)
  /-- A call of a function that the program does not have. -/
  | unknownFunction (id : Nat)
  /-- A read of a global that the program does not have. -/
  | unknownGlobal (slot : Nat)
deriving DecidableEq, Inhabited, Repr

namespace RunError

/-- What the message of a run-time error says. -/
def message : RunError → String
  | notAClosure found => "applying a non-closure value (" ++ found ++ ")"
  | unsupportedArity arity => "arity " ++ toString arity ++ " not supported"
  | arityMismatch expected found =>
    "function expects " ++ toString expected ++ " arguments but was called with " ++ toString found
  | divisionByZero => "division by zero"
  | typeMismatch operation expected found =>
    operation ++ " expects " ++ expected ++ ", found " ++ found
  | stackOverflow limit => "call depth exceeded " ++ toString limit
  | undefinedVariable name => "internal error: variable '" ++ name ++ "' read before it was set"
  | unknownFunction id => "internal error: no function " ++ toString id
  | unknownGlobal slot => "internal error: no global " ++ toString slot

end RunError

end Lamina.Machine
