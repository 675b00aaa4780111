import Lamina.Regex.Escape

/-!
# The grammar of classes

A class in brackets is a list of characters, ranges, and classes, which may be in brackets
themselves. Operators between such lists combine them and group to the left.
-/

namespace Lamina.Regex

open ReadM

namespace Parser

/-- A class that is being read: what stands to the left of the current operand, and the items of
this operand, last first. -/
structure ClassLayer where
  left : Option (SetOp × ClassSet)
  /-- Where the operand starts. -/
  start : Nat
  items : List ClassSet
deriving Inhabited, Repr

namespace ClassLayer

/-- Adds an item. -/
def push (layer : ClassLayer) (item : ClassSet) : ClassLayer :=
  { layer with items := item :: layer.items }

/-- The operand that has been read. -/
def operand (layer : ClassLayer) : ClassSet :=
  match layer.items with
  | [] => .empty (.point layer.start)
  | [item] => item
  | last :: before =>
    let first := before.getLast?.getD last
    .union layer.items.reverse ⟨first.span.start, last.span.stop⟩

/-- All that has been read. Operators group to the left. -/
def finish (layer : ClassLayer) : ClassSet :=
  let right := layer.operand
  match layer.left with
  | none => right
  | some (op, left) => .combined op left right ⟨left.span.start, right.span.stop⟩

end ClassLayer

/-- Reads the name of an ASCII class in brackets and colons, if there is one. -/
def namedClass? : ReadM (Option ClassSet) := do
  let saved ← get
  let start ← here
  let giveUp : ReadM (Option ClassSet) := do
    set saved
    return none
  if ← eat "[:" then
    let negated ← eat "^"
    let name := (← get).rest.takeWhile (· ≠ ':')
    skip name.length
    if ← eat ":]" then
      match NamedClass.ofName? (String.ofList name) with
      | some kind => return some (.named kind negated (← since start))
      | none => giveUp
    else giveUp
  else giveUp

/-- Reads a dash at the start of a class as often as there is one, and at most `bound` times. -/
def leadingDashes (start : Nat) : (bound : Nat) → ClassLayer → ReadM ClassLayer
  | 0, layer => return layer
  | bound + 1, layer => do
    if (← peek) = some '-' then
      let span ← charSpan
      advanceFar
      if (← peek).isNone then fail .classUnclosed (.point start)
      else leadingDashes start bound (layer.push (.literal ⟨'-', false, span⟩))
    else return layer

/-- Reads the start of a class: its bracket, a caret, and dashes or a closing bracket that stand for
themselves. Answers with whether the class is negated, the place of this start, and its items. -/
def classHead : ReadM (Bool × Span × ClassLayer) := do
  let start ← here
  let needMore : ReadM Unit := do
    if (← peek).isNone then fail .classUnclosed (← since start)
  advanceFar
  needMore
  let negated := (← peek) = some '^'
  if negated then
    advanceFar
    needMore
  let layer ← leadingDashes start (← get).rest.length ⟨none, ← here, []⟩
  if layer.items.isEmpty ∧ (← peek) = some ']' then
    let span ← charSpan
    advanceFar
    needMore
    return (negated, ← since start, layer.push (.literal ⟨']', false, span⟩))
  else return (negated, ← since start, layer)

/-- Reads an end of a range, or an item that is no range, which starts with `c`. -/
def classAtom (c : Char) : ReadM Atom := do
  if c = '\\' then escape
  else
    let span ← charSpan
    advance
    return .literal ⟨c, false, span⟩

/-- An atom as an item of a class. -/
def itemOfAtom : Atom → ReadM ClassSet
  | .literal l => return .literal l
  | .shorthand s => return .shorthand s
  | .property p => return .property p
  | .dot span | .anchor _ span => fail .escapeInClass span

/-- An atom as an end of a range. -/
def boundOfAtom : Atom → ReadM Literal
  | .literal l => return l
  | other => fail .classRangeBound other.span

/-- Reads a range or a single item that starts with `c`, in the class that starts at `opened`. -/
def classRange (opened : Span) (c : Char) : ReadM ClassSet := do
  let first ← classAtom c
  skipIgnored
  match ← peek with
  | none => fail .classUnclosed opened
  | some '-' =>
    let behind ← peekBehind
    if behind = some ']' ∨ behind = some '-' then itemOfAtom first
    else
      advanceFar
      match ← peek with
      | none => fail .classUnclosed opened
      | some d =>
        let last ← classAtom d
        let span : Span := ⟨first.span.start, last.span.stop⟩
        let low ← boundOfAtom first
        let high ← boundOfAtom last
        if low.char ≤ high.char then return .range low high span
        else fail .classRangeReversed span
  | some _ => itemOfAtom first

/-- The operator that two characters write. -/
def setOp? (c d : Char) : Option SetOp :=
  if c = '&' ∧ d = '&' then some .intersection
  else if c = '-' ∧ d = '-' then some .difference
  else if c = '~' ∧ d = '~' then some .symmetricDifference
  else none

/-- Reads the rest of the class that starts at `opened`, with its closing bracket. -/
def classRest : (bound : Nat) → (opened : Span) → ClassLayer → ReadM ClassSet
  | 0, opened, _ => fail .nestedTooDeep opened
  | bound + 1, opened, layer => do
    skipIgnored
    match ← peek with
    | none => fail .classUnclosed opened
    | some ']' =>
      advance
      return layer.finish
    | some '[' =>
      match ← namedClass? with
      | some item => classRest bound opened (layer.push item)
      | none =>
        let (negated, inner, head) ← classHead
        let set ← classRest bound inner head
        let span ← since inner.start
        classRest bound opened (layer.push (.bracketed negated set span))
    | some c =>
      match (← peekSecond).bind (setOp? c) with
      | some op =>
        skip 2
        classRest bound opened ⟨some (op, layer.finish), ← here, []⟩
      | none => classRest bound opened (layer.push (← classRange opened c))

/-- Reads a class in brackets. -/
def bracketed : ReadM Tree := do
  let bound := (← get).rest.length
  let (negated, opened, layer) ← classHead
  let set ← classRest bound opened layer
  return .bracketed negated set (← since opened.start)

end Parser

end Lamina.Regex
