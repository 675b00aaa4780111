import Lamina.Regex.Reader
import Lamina.Regex.Tree

/-!
# The grammar of atoms

An atom is a character, which stands for itself or has a meaning of its own, or an escape. Escapes
write characters by their codes, classes of characters, and conditions on a place.
-/

namespace Lamina.Regex

open ReadM

namespace Parser

/-- The number that digits denote. -/
def number (base : Nat) (digits : List Char) : Nat :=
  digits.foldl (fun n d =>
    n * base +
      if d.isDigit then d.toNat - '0'.toNat
      else if d.isLower then d.toNat - 'a'.toNat + 10
      else d.toNat - 'A'.toNat + 10) 0

/-- Is this a hexadecimal digit? -/
def isHex (c : Char) : Bool :=
  c.isDigit || ('a' ≤ c && c ≤ 'f') || ('A' ≤ c && c ≤ 'F')

/-- The characters with a meaning of their own. -/
def isMeta (c : Char) : Bool := "\\.+*?()|[]\x7b\x7d^$#&-~".toList.contains c

/-- May a backslash stand before this character to no effect? -/
def isEscapable (c : Char) : Bool :=
  isMeta c || (c.toNat < 128 && !c.isAlphanum && c ≠ '<' && c ≠ '>')

/-- The character with a code in hexadecimal digits, which stand at `span`. -/
def hexChar (digits : List Char) (span : Span) : ReadM Char :=
  let code := number 16 digits
  if code.isValidChar then return Char.ofNat code else fail .hexInvalid span

/-- Reads `count` hexadecimal digits. -/
def hexDigits : (count : Nat) → ReadM (List Char)
  | 0 => return []
  | count + 1 => do
    match ← peek with
    | none => fail .escapeUnfinished (← point)
    | some c =>
      if isHex c then
        advanceFar
        return c :: (← hexDigits count)
      else fail .hexDigit (← charSpan)

/-- Reads hexadecimal digits in braces. -/
def hexInBraces : ReadM Char := do
  let brace ← here
  let start := (← charSpan).stop
  advanceFar
  let digits ← takeAllFar isHex
  match ← peek with
  | none => fail .escapeUnfinished (← since brace)
  | some '}' =>
    let stop ← here
    advanceFar
    if digits.isEmpty then fail .hexEmpty (← since brace) else hexChar digits ⟨start, stop⟩
  | some _ => fail .hexDigit (← charSpan)

/-- Reads the code of a character behind the backslash at `start`; `kind` is the next letter. -/
def hexEscape (start : Nat) (kind : Char) : ReadM Literal := do
  advanceFar
  match ← peek with
  | none => fail .escapeUnfinished (← point)
  | some '{' =>
    let c ← hexInBraces
    return ⟨c, false, ← since start⟩
  | some _ =>
    let first ← here
    let digits ← hexDigits (if kind = 'x' then 2 else if kind = 'u' then 4 else 8)
    let c ← hexChar digits (← since first)
    return ⟨c, kind = 'x', ← since start⟩

/-- The name of a property, unless a value follows it. -/
def propertyName (text : List Char) : Option String :=
  if text.contains ':' || text.contains '=' then none else some (String.ofList text)

/-- Reads a property behind the backslash at `start`. -/
def propertyEscape (start : Nat) (negated : Bool) : ReadM Property := do
  advanceFar
  match ← peek with
  | none => fail .escapeUnfinished (← point)
  | some '{' =>
    advanceFar
    let text ← takeAllFar (· ≠ '}')
    if (← peek).isNone then fail .escapeUnfinished (← point)
    else
      advance
      return ⟨propertyName text, negated, ← since start⟩
  | some '\\' => fail .propertyInvalid (← charSpan)
  | some c =>
    advanceFar
    return ⟨some (String.singleton c), negated, ← since start⟩

/-- The word boundaries by name. -/
def boundary? (name : String) : Option Anchor :=
  [("start", Anchor.wordStart), ("end", .wordEnd), ("start-half", .wordStartHalf),
    ("end-half", .wordEndHalf)].lookup name

/-- Reads the name of a word boundary in braces; its backslash is at `start`. If the braces do not
hold a name, they count repetitions, and nothing is read. -/
def boundaryName? (start : Nat) : ReadM (Option Anchor) := do
  let isNamePart (c : Char) : Bool := c.isAlpha || c = '-'
  let saved ← get
  let brace ← here
  advanceFar
  match ← peek with
  | none => fail .boundaryUnfinished (← since start)
  | some c =>
    if isNamePart c then
      let first ← here
      let name ← takeAllFar isNamePart
      if (← peek) = some '}' then
        let span ← since first
        advance
        match boundary? (String.ofList name) with
        | some kind => return some kind
        | none => fail .boundaryUnknown span
      else fail .boundaryUnclosed (← since brace)
    else
      set saved
      return none

/-- The control characters with a letter of their own. -/
def controlChar? (c : Char) : Option Char :=
  [('a', '\x07'), ('f', '\x0c'), ('t', '\t'), ('n', '\n'), ('r', '\r'), ('v', '\x0b')].lookup c

/-- The classes with a letter of their own; capitals negate them. -/
def shorthand? (c : Char) : Option (ShorthandKind × Bool) :=
  [('d', (ShorthandKind.digit, false)), ('s', (.space, false)), ('w', (.word, false)),
    ('D', (.digit, true)), ('S', (.space, true)), ('W', (.word, true))].lookup c

/-- The conditions with an escape of their own. -/
def anchor? (c : Char) : Option Anchor :=
  [('A', Anchor.startText), ('z', .endText), ('b', .boundary), ('B', .notBoundary),
    ('<', .wordStart), ('>', .wordEnd)].lookup c

/-- Reads an escape of a single character `c` behind the backslash at `start`. -/
def plainEscape (start : Nat) (c : Char) : ReadM Atom := do
  advance
  let span ← since start
  if isEscapable c then return .literal ⟨c, false, span⟩
  else
    match controlChar? c, shorthand? c, anchor? c with
    | some control, _, _ => return .literal ⟨control, false, span⟩
    | none, some (kind, negated), _ => return .shorthand ⟨kind, negated, span⟩
    | none, none, some kind =>
      if c = 'b' ∧ (← peek) = some '{' then
        match ← boundaryName? start with
        | some special => return .anchor special (← since start)
        | none => return .anchor kind span
      else return .anchor kind span
    | none, none, none => fail .escapeUnknown span

/-- Reads an escape. -/
def escape : ReadM Atom := do
  let start ← here
  advance
  match ← peek with
  | none => fail .escapeUnfinished (← since start)
  | some c =>
    if c.isDigit then fail .backreference ⟨start, (← charSpan).stop⟩
    else if c = 'x' ∨ c = 'u' ∨ c = 'U' then return .literal (← hexEscape start c)
    else if c = 'p' ∨ c = 'P' then return .property (← propertyEscape start (c = 'P'))
    else plainEscape start c

/-- Reads an atom that starts with `c`. -/
def atom (c : Char) : ReadM Atom := do
  if c = '\\' then escape
  else
    let span ← charSpan
    advance
    if c = '.' then return .dot span
    else if c = '^' then return .anchor .startLine span
    else if c = '$' then return .anchor .endLine span
    else return .literal ⟨c, false, span⟩

end Parser

end Lamina.Regex
