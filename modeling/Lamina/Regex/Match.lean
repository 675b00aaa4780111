import Lamina.Regex.Expr

/-!
# Matching

`Expr.ends text e places` lists the places of a text that are reached from one of `places` by
reading a text that matches `e`. A place is a number of characters before it; lists of places are
ascending. An expression matches in a text if some place is reached from some place.

More rounds of a repetition than there are places lead nowhere new: such a path has an empty round,
which can be left out or repeated. That bounds the rounds.
-/

namespace Lamina.Regex

/-- All places of two ascending lists. -/
def mergePlaces : List Nat → List Nat → List Nat
  | [], ys => ys
  | x :: xs, ys => (ys.takeWhile (· < x)) ++ x :: mergePlaces xs (ys.dropWhile (· ≤ x))

/-- The places of an ascending list that are not in another. -/
def newPlaces : (places known : List Nat) → List Nat
  | [], _ => []
  | x :: xs, known =>
    let later := known.dropWhile (· < x)
    if later.head? = some x then newPlaces xs later else x :: newPlaces xs later

/-- Takes a number of steps, or as many as change anything. -/
def takeSteps (step : List Nat → List Nat) : Nat → List Nat → List Nat
  | 0, places => places
  | n + 1, places =>
    let reached := step places
    if reached = places then places else takeSteps step n reached

/-- All places that are reached by at most a number of steps; `known` are those reached before, and
`latest` those of them that were reached last. -/
def spread (step : List Nat → List Nat) : Nat → (known latest : List Nat) → List Nat
  | 0, known, _ => known
  | n + 1, known, latest =>
    match newPlaces (step latest) known with
    | [] => known
    | found => spread step n (mergePlaces known found) found

namespace Look

/-- Is a character part of a word? -/
def isWordChar (c : Char) : Bool := c.isAlphanum || c == '_'

/-- Is a condition met between the characters `before` and `behind`, if there are any? -/
def holds (before behind : Option Char) : Look → Bool
  | startText => before.isNone
  | endText => behind.isNone
  | startLine => before.isNone || before == some '\n'
  | endLine => behind.isNone || behind == some '\n'
  | startCrlfLine =>
    before.isNone || before == some '\n' || (before == some '\r' && behind != some '\n')
  | endCrlfLine =>
    behind.isNone || behind == some '\r' || (behind == some '\n' && before != some '\r')
  | boundary => before.any isWordChar != behind.any isWordChar
  | notBoundary => before.any isWordChar == behind.any isWordChar
  | wordStart => !before.any isWordChar && behind.any isWordChar
  | wordEnd => before.any isWordChar && !behind.any isWordChar
  | wordStartHalf => !before.any isWordChar
  | wordEndHalf => !behind.any isWordChar
  | wideWord => false

end Look

namespace Expr

/-- The character before a place. -/
def before (text : Array Char) (place : Nat) : Option Char :=
  if place = 0 then none else text[place - 1]?

mutual

/-- The places that are reached from one of `places`. -/
def ends (text : Array Char) : Expr → (places : List Nat) → List Nat
  | empty, places => places
  | chars set, places =>
    (places.filter fun place => text[place]?.any set.contains).map (· + 1)
  | look condition, places =>
    places.filter fun place => condition.holds (before text place) text[place]?
  | repetition least most body, places =>
    let rounds := text.size + 2
    let start := takeSteps (ends text body) (min least rounds) places
    match most with
    | none => spread (ends text body) rounds start start
    | some most => spread (ends text body) (min (most - least) rounds) start start
  | remembered body, places => ends text body places
  | alternation branches, places => endsAny text branches places
  | concat parts, places => endsAll text parts places

/-- The places that are reached by one of the expressions. -/
def endsAny (text : Array Char) : List Expr → (places : List Nat) → List Nat
  | [], _ => []
  | e :: rest, places => mergePlaces (ends text e places) (endsAny text rest places)

/-- The places that are reached by the expressions, one after the other. -/
def endsAll (text : Array Char) : List Expr → (places : List Nat) → List Nat
  | [], places => places
  | e :: rest, places => endsAll text rest (ends text e places)

end

/-- Does the expression match somewhere in a text? -/
def isMatch (e : Expr) (text : String) : Bool :=
  let chars := text.toList.toArray
  !(e.ends chars (List.range (chars.size + 1))).isEmpty

end Expr

end Lamina.Regex
