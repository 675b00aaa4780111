/-!
# Sets of numbers as runs

A set of code points is stored as the lengths of its runs: from zero on so many numbers are outside,
the next so many inside, and so on in turn. What follows the last run is outside.
-/

namespace Lamina.Text

/-- Is `n` in the set with these runs, the first of which is inside or outside as given? -/
def inRuns (inside : Bool) : (runs : List Nat) → (n : Nat) → Bool
  | [], _ => false
  | length :: rest, n => if n < length then inside else inRuns (!inside) rest (n - length)

end Lamina.Text
