import Lamina.Proofs.Native.Program
import Lamina.Proofs.Pipeline.Safety

/-!
# The native program and the machine agree

Running a compiled program on the machine and running its executable show the user the same. The
machine bounds how deep calls may nest, and the executable has a stack that can be too short; apart
from that both end in the same way.
-/

namespace Lamina

open Flat (Program Outline)
open Machine (run RunError)

/-- What a run has written when it ends, be it with a value or with an error. -/
def Machine.written (limit : Nat) (p : Program) : String :=
  (execBlock p (invoke p limit limit) p.entry [] .start).2.output

/-- Errors of sound outlines are those that a native program has words for, but for calls that nest
too deep. -/
theorem Flat.Outline.Fair.fatal {o : Outline} {e : RunError} (h : o.Fair e)
    (hdeep : ∀ limit, e ≠ .stackOverflow limit) : ∃ f, Native.Fatal.of? e = some f := by
  cases e with
  | stackOverflow limit => exact absurd rfl (hdeep limit)
  | arityMismatch | undefinedVariable | unknownFunction | unknownGlobal => cases h
  | _ => exact ⟨_, rfl⟩

/-- A text that prints a line and then divides by zero. -/
def lineThenZeroText : String :=
  "after x y = y\n" ++
  "main = after (putStrLn \"half\") (1 `div` 0)"

end Lamina
