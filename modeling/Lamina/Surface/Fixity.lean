/-!
# Fixities

How tightly an operator binds, and which way a chain of operators of one level nests. The table
is fixed; an operator that is not in it binds most tightly, to the left.
-/

namespace Lamina.Surface

/-- How a chain of operators of one level nests. `none` means that it may not be written. -/
inductive Assoc
  | left | right | none
deriving DecidableEq, Inhabited, Repr

/-- Level and associativity of an operator. A higher level binds more tightly. -/
structure Fixity where
  level : Nat
  assoc : Assoc
deriving DecidableEq, Inhabited, Repr

namespace Fixity

/-- The fixity of an operator, symbolic or in backticks. -/
def ofName (op : String) : Fixity :=
  if op = "." then ⟨9, .right⟩
  else if op ∈ ["*", "/", "div", "mod", "rem", "quot"] then ⟨7, .left⟩
  else if op ∈ ["+", "-"] then ⟨6, .left⟩
  else if op ∈ ["++", ":"] then ⟨5, .right⟩
  else if op ∈ ["==", "/=", "<", "<=", ">", ">=", "elem", "notElem"] then ⟨4, .none⟩
  else if op = "&&" then ⟨3, .right⟩
  else if op = "||" then ⟨2, .right⟩
  else if op ∈ [">>", ">>="] then ⟨1, .left⟩
  else if op ∈ ["$", "$!", "seq"] then ⟨0, .right⟩
  else ⟨9, .left⟩

/-- The least level that the right operand of an operator may have at its top. -/
def rightLevel (f : Fixity) : Nat :=
  match f.assoc with
  | .right => f.level
  | _ => f.level + 1

/-- The level of prefix minus: it takes what multiplication takes. -/
def negationLevel : Nat := 7

end Fixity

end Lamina.Surface
