import Lamina.Regex.Match
import Lamina.Regex.Meaning
import Lamina.Regex.Parser

/-!
# Regular expressions

A pattern is read and its meaning is determined. What comes out is an expression that can be
matched, or the reason why the pattern is refused.
-/

namespace Lamina.Regex

/-- Why a pattern is refused. -/
inductive Refusal
  | fault (pattern : String) (fault : Fault)
  | tooLarge
  /-- The pattern speaks of words of all scripts. -/
  | wideWord
deriving DecidableEq, Inhabited, Repr

/-- The refusal in words. -/
def Refusal.message : Refusal → String
  | fault pattern f => f.report pattern
  | tooLarge => "Compiled regex exceeds size limit of " ++ toString Expr.maxSize ++ " bytes."
  | wideWord => "error building NFA"

/-- The expression of a pattern. -/
def compile (pattern : String) : Except Refusal Expr :=
  match (do meaning .start (← parse pattern) : Except Fault (Expr × Mode)) with
  | .error f => .error (.fault pattern f)
  | .ok (e, _) =>
    if Expr.maxSize < e.size then .error .tooLarge
    else if e.hasWideWord then .error .wideWord
    else .ok e

end Lamina.Regex
