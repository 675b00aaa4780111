import Lamina.Command.Session

/-!
# The executable

The operating system as the host of a session.
-/

namespace Lamina.Command

/-- Why an operation on a file failed. -/
def fileError : IO.Error → FileError
  | .resourceExhausted .. => .isDirectory
  | .inappropriateType .. => .notDirectory
  | _ => .missing

/-- The operating system as a host. It starts no other commands, so no executable is built. -/
def systemHost : Host IO where
  read path := do
    try
      return .ok (← IO.FS.readBinFile path)
    catch e => return .error (fileError e)
  write path text := do
    try
      IO.FS.writeFile path text
      return .ok ()
    catch e => return .error (fileError e)
  build cc _ _ := return .error (.notStarted cc "Function not implemented (os error 38)")
  out text := do (← IO.getStdout).putStr text
  err text := do (← IO.getStderr).putStr text

end Lamina.Command

open Lamina.Command in
/-- Runs the command. -/
def main (args : List String) : IO UInt32 := do
  let env : Environment := ⟨← IO.getEnv "RUST_LOG", ← IO.getEnv "LAZYC_CC"⟩
  return (← runCommand systemHost env args).toUInt32
