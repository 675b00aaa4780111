import Lamina.Regex.CharSet

/-!
# Expressions

What a pattern means, without its notation. An expression has a size, which is about the number of
bytes that an automaton for it takes, and a pattern with too large an expression is refused.
-/

namespace Lamina.Regex

/-- Conditions on a place in a text. A line ends before a newline, or before a carriage return or a
newline that is not its second half. Words consist of ASCII letters, digits and underscores. -/
inductive Look
  | startText | endText
  | startLine | endLine
  | startCrlfLine | endCrlfLine
  | boundary | notBoundary
  | wordStart | wordEnd
  | wordStartHalf | wordEndHalf
  /-- A condition on words of all scripts, which nothing meets: a pattern that has it is refused. -/
  | wideWord
deriving DecidableEq, Inhabited, Repr

/-- An expression. -/
inductive Expr
  | empty
  | chars (set : CharSet)
  | look (condition : Look)
  | repetition (least : Nat) (most : Option Nat) (body : Expr)
  /-- A part that is remembered; it matches what its body does. -/
  | remembered (body : Expr)
  | alternation (branches : List Expr)
  | concat (parts : List Expr)
deriving Inhabited, Repr

namespace Expr

mutual

/-- Does the expression match empty texts only? -/
def isZeroWidth : Expr → Bool
  | empty | look _ => true
  | chars _ => false
  | repetition _ _ body | remembered body => body.isZeroWidth
  | alternation parts | concat parts => areZeroWidth parts

/-- Do all the expressions match empty texts only? -/
def areZeroWidth : List Expr → Bool
  | [] => true
  | e :: rest => e.isZeroWidth && areZeroWidth rest

end

/-- A repetition of an expression. What matches empty texts only is not repeated more than once. -/
def ofRepetition (least : Nat) (most : Option Nat) (body : Expr) : Expr :=
  let least' := if body.isZeroWidth then min least 1 else least
  let most' := if body.isZeroWidth then some (min (most.getD 1) 1) else most
  if most' = some 0 then empty
  else if least' = 1 ∧ most' = some 1 then body
  else repetition least' most' body

mutual

/-- Does the expression have a condition on words of all scripts? -/
def hasWideWord : Expr → Bool
  | look condition => condition == .wideWord
  | empty | chars _ => false
  | repetition _ _ body | remembered body => body.hasWideWord
  | alternation parts | concat parts => haveWideWord parts

/-- Does one of the expressions have a condition on words of all scripts? -/
def haveWideWord : List Expr → Bool
  | [] => false
  | e :: rest => e.hasWideWord || haveWideWord rest

end

/-! ## Size -/

/-- What a state of the automaton takes. -/
def stateSize : Nat := 32

/-- The size of a set. A single character takes a state for each byte. -/
def charsSize (set : CharSet) : Nat :=
  match set.ranges with
  | [] => stateSize
  | [(first, last)] =>
    if first = last then stateSize * (Char.ofNat first).utf8Size
    else if set.isAscii then 2 * stateSize
    else 9 * stateSize + 72
  | ranges =>
    if set.isAscii then 2 * stateSize + 8 * ranges.length
    else 9 * stateSize + 64 + 8 * ranges.length

mutual

/-- About the number of bytes that an automaton for the expression takes. -/
def size : Expr → Nat
  | empty | look _ => stateSize
  | chars set => charsSize set
  | repetition least none body => max least 1 * body.size + stateSize + 8
  | repetition least (some most) body =>
    least * body.size +
      if least = most then 0 else (most - least) * (body.size + stateSize + 8) + stateSize
  | remembered body => body.size + 2 * stateSize
  | alternation branches => sizes branches + 2 * stateSize + 4 * branches.length
  | concat parts => sizes parts

/-- The sizes of expressions together. -/
def sizes : List Expr → Nat
  | [] => 0
  | e :: rest => e.size + sizes rest

end

/-- The largest size that is allowed. -/
def maxSize : Nat := 10485760

end Expr

end Lamina.Regex
