import Lamina.Text.Blank

/-!
# The C compiler

Which command compiles the C text of a native build, and what can go wrong with it.
-/

namespace Lamina.Native

/-- The C compiler: the one asked for, else the one that the environment names, else `cc`. A blank
name in the environment counts as none. -/
def compilerCommand (explicit environment : Option String) : String :=
  match explicit, environment with
  | some cc, _ => cc
  | none, some cc => if cc.toList.all Text.isBlank then "cc" else cc
  | none, none => "cc"

/-- Why a native build failed. -/
inductive BuildError
  /-- The compiler could not be started, for the reason given. -/
  | notStarted (cc reason : String)
  /-- The compiler ended with an exit code other than zero. -/
  | failed (cc : String) (code : Nat)
deriving DecidableEq, Inhabited, Repr

/-- What a failed build says. -/
def BuildError.message : BuildError → String
  | notStarted cc reason => "C compiler '" ++ cc ++ "' could not start: " ++ reason
  | failed cc code =>
    "'" ++ cc ++ "' failed to compile the program (exit: Some(" ++ toString code ++ "))"

end Lamina.Native
