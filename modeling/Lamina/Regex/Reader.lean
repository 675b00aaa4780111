import Lamina.Regex.Fault
import Lamina.Text.Blank

/-!
# Reading a pattern

A reader goes through a pattern from left to right. While blanks are ignored, it can skip them
together with comments, which go from a number sign to the end of the line.
-/

namespace Lamina.Regex

/-- What is left of a pattern, and what has been seen. -/
structure Reader where
  /-- The byte at which the rest starts. -/
  pos : Nat
  rest : List Char
  /-- Are blanks and comments ignored? -/
  ignoreBlanks : Bool
  /-- The names of groups, each with its place. -/
  names : List (String × Span)
deriving Inhabited, Repr

/-- The reader at the start of a pattern. -/
def Reader.start (pattern : String) : Reader := ⟨0, pattern.toList, false, []⟩

/-- Reading moves a reader, or finds a fault. -/
abbrev ReadM := StateT Reader (Except Fault)

namespace ReadM

/-- Refuses the pattern. -/
def fail {α : Type} (flaw : Flaw) (span : Span) : ReadM α := throw ⟨flaw, span, none⟩

/-- The place that has been reached. -/
def here : ReadM Nat := return (← get).pos

/-- The empty span at this place. -/
def point : ReadM Span := return .point (← get).pos

/-- The span from a place to this one. -/
def since (start : Nat) : ReadM Span := return ⟨start, (← get).pos⟩

/-- The span of the next character. -/
def charSpan : ReadM Span := do
  let r ← get
  return ⟨r.pos, r.pos + byteLength (r.rest.take 1)⟩

/-- The next character. -/
def peek : ReadM (Option Char) := return (← get).rest.head?

/-- The character behind the next one. -/
def peekSecond : ReadM (Option Char) := return (← get).rest[1]?

/-- Moves over a number of characters. -/
def skip (n : Nat) : ReadM Unit :=
  modify fun r => { r with pos := r.pos + byteLength (r.rest.take n), rest := r.rest.drop n }

/-- Moves over the next character. -/
def advance : ReadM Unit := skip 1

/-- How many blanks and characters of comments a text starts with; `comment` says whether it starts
inside a comment. -/
def countIgnored (comment : Bool) : List Char → Nat
  | [] => 0
  | c :: cs =>
    if comment then countIgnored (c ≠ '\n') cs + 1
    else if Text.isBlank c then countIgnored false cs + 1
    else if c = '#' then countIgnored true cs + 1
    else 0

/-- Moves over blanks and comments, if they are ignored. -/
def skipIgnored : ReadM Unit := do
  let r ← get
  if r.ignoreBlanks then skip (countIgnored false r.rest)

/-- Moves over the next character, and over what is ignored behind it. -/
def advanceFar : ReadM Unit := do
  advance
  skipIgnored

/-- Moves over a text, if the rest starts with it. -/
def eat (text : String) : ReadM Bool := do
  if text.toList.isPrefixOf (← get).rest then
    skip text.length
    return true
  else return false

/-- What a range in a class goes on with behind the dash: the next character that is neither a blank
nor the number sign of the first comment, if blanks are ignored. -/
def peekBehind : ReadM (Option Char) := do
  let r ← get
  let tail := r.rest.drop 1
  if r.ignoreBlanks then
    let tail' :=
      match tail.dropWhile Text.isBlank with
      | '#' :: cs => cs.dropWhile Text.isBlank
      | cs => cs
    return if tail'.isEmpty then tail.head? else tail'.head?
  else return tail.head?

/-- Reads characters of a class, at most `bound` many, skipping what is ignored behind each. -/
def takeFar (p : Char → Bool) : (bound : Nat) → ReadM (List Char)
  | 0 => return []
  | bound + 1 => do
    match ← peek with
    | some c =>
      if p c then
        advanceFar
        return c :: (← takeFar p bound)
      else return []
    | none => return []

/-- Reads characters of a class as long as there are any, skipping what is ignored behind each. -/
def takeAllFar (p : Char → Bool) : ReadM (List Char) := do takeFar p (← get).rest.length

/-- Moves over characters of a class. -/
def skipWhile (p : Char → Bool) : ReadM Unit := do
  skip ((← get).rest.takeWhile p).length

end ReadM

end Lamina.Regex
