import Lamina.Text.Position

/-!
# Faults of patterns

Why a pattern is refused, and where. A fault is reported with the pattern and marks under the places
that it concerns. A pattern of several lines is shown between dividers, with numbered lines; a place
that spans several lines has no marks and is described in words.
-/

namespace Lamina.Regex

/-- The deepest nesting that a pattern may have. -/
def maxDepth : Nat := 250

/-- What is wrong with a pattern. -/
inductive Flaw
  | escapeInClass
  | classRangeReversed
  | classRangeBound
  | classUnclosed
  | decimalInvalid
  | hexEmpty
  | hexInvalid
  | hexDigit
  | escapeUnfinished
  | escapeUnknown
  | flagNegationDangling
  | flagRepeated
  | flagNegationRepeated
  | flagsUnfinished
  | flagUnknown
  | groupNameRepeated
  | groupNameEmpty
  | groupNameInvalid
  | groupNameUnfinished
  | groupUnclosed
  | groupUnopened
  | nestedTooDeep
  | countReversed
  | countEmpty
  | countUnclosed
  | operandMissing
  | boundaryUnclosed
  | boundaryUnknown
  | boundaryUnfinished
  | propertyInvalid
  | backreference
  | lookAround
  | unicodeRefused
  | invalidText
  | propertyUnknown
  | propertyValueUnknown
  | shorthandUnavailable
  | foldingUnavailable
deriving DecidableEq, Inhabited, Repr

/-- The flaw in words. -/
def Flaw.message : Flaw → String
  | escapeInClass => "invalid escape sequence found in character class"
  | classRangeReversed => "invalid character class range, the start must be <= the end"
  | classRangeBound => "invalid range boundary, must be a literal"
  | classUnclosed => "unclosed character class"
  | decimalInvalid => "decimal literal invalid"
  | hexEmpty => "hexadecimal literal empty"
  | hexInvalid => "hexadecimal literal is not a Unicode scalar value"
  | hexDigit => "invalid hexadecimal digit"
  | escapeUnfinished => "incomplete escape sequence, reached end of pattern prematurely"
  | escapeUnknown => "unrecognized escape sequence"
  | flagNegationDangling => "dangling flag negation operator"
  | flagRepeated => "duplicate flag"
  | flagNegationRepeated => "flag negation operator repeated"
  | flagsUnfinished => "expected flag but got end of regex"
  | flagUnknown => "unrecognized flag"
  | groupNameRepeated => "duplicate capture group name"
  | groupNameEmpty => "empty capture group name"
  | groupNameInvalid => "invalid capture group character"
  | groupNameUnfinished => "unclosed capture group name"
  | groupUnclosed => "unclosed group"
  | groupUnopened => "unopened group"
  | nestedTooDeep =>
    "exceed the maximum number of nested parentheses/brackets (" ++ toString maxDepth ++ ")"
  | countReversed => "invalid repetition count range, the start must be <= the end"
  | countEmpty => "repetition quantifier expects a valid decimal"
  | countUnclosed => "unclosed counted repetition"
  | operandMissing => "repetition operator missing expression"
  | boundaryUnclosed =>
    "special word boundary assertion is either unclosed or contains an invalid character"
  | boundaryUnknown =>
    "unrecognized special word boundary assertion, valid choices are: start, end, start-half or " ++
      "end-half"
  | boundaryUnfinished =>
    "found either the beginning of a special word boundary or a bounded repetition on a " ++
      "\\b with an opening brace, but no closing brace"
  | propertyInvalid => "invalid Unicode character class"
  | backreference => "backreferences are not supported"
  | lookAround => "look-around, including look-ahead and look-behind, is not supported"
  | unicodeRefused => "Unicode not allowed here"
  | invalidText => "pattern can match invalid UTF-8"
  | propertyUnknown => "Unicode property not found"
  | propertyValueUnknown => "Unicode property value not found"
  | shorthandUnavailable =>
    "Unicode-aware Perl class not found (make sure the unicode-perl feature is enabled)"
  | foldingUnavailable =>
    "Unicode-aware case insensitivity matching is not available (make sure the unicode-case " ++
      "feature is enabled)"

/-- A flaw and the place where it stands. -/
structure Fault where
  flaw : Flaw
  span : Span
  /-- The place of what the flaw repeats. -/
  earlier : Option Span
deriving DecidableEq, Inhabited, Repr

namespace Fault

/-- A place in lines and columns. -/
structure Extent where
  start : Position
  stop : Position
deriving DecidableEq, Inhabited, Repr

/-- Where a span of the pattern lies. -/
def extent (pattern : String) (span : Span) : Extent :=
  ⟨.scan pattern span.start, .scan pattern span.stop⟩

/-- The places that a fault concerns, from left to right. -/
def extents (pattern : String) (fault : Fault) : List Extent :=
  match fault.earlier with
  | none => [extent pattern fault.span]
  | some span =>
    if span.start ≤ fault.span.start then [extent pattern span, extent pattern fault.span]
    else [extent pattern fault.span, extent pattern span]

/-- The text of a line that a newline ends: a carriage return before it does not count. -/
def endedLine (line : List Char) : List Char :=
  match line.reverse with
  | '\r' :: rest => rest.reverse
  | _ => line

/-- The lines of a text whose current line starts with the characters of `line`, last first. -/
def linesFrom (line : List Char) : List Char → List (List Char)
  | [] => if line.isEmpty then [] else [line.reverse]
  | c :: cs =>
    if c = '\n' then endedLine line.reverse :: linesFrom [] cs else linesFrom (c :: line) cs

/-- The lines of a text. An empty line at its end is none. -/
def lines (text : String) : List (List Char) := linesFrom [] text.toList

/-- A number of equal characters. -/
def row (c : Char) (n : Nat) : String := String.ofList (List.replicate n c)

/-- The marks of the places on a line, from column `column` on. -/
def marks : (column : Nat) → List Extent → String
  | _, [] => ""
  | column, place :: rest =>
    let width := max 1 (place.stop.column - place.start.column)
    row ' ' (place.start.column - column) ++ row '^' width ++
      marks (max column place.start.column + width) rest

/-- The lines of a pattern from line `number` on, each below with its marks. Numbers are `width`
characters wide; without any width, lines have none. -/
def annotate (width : Nat) (places : List Extent) : (number : Nat) → List (List Char) → String
  | _, [] => ""
  | number, line :: rest =>
    let label :=
      if width = 0 then "    "
      else row ' ' (width - (toString number).length) ++ toString number ++ ": "
    let here := places.filter fun place => place.start.line = number ∧ place.stop.line = number
    let note :=
      if here.isEmpty then ""
      else row ' ' (if width = 0 then 4 else width + 2) ++ marks 1 here ++ "\n"
    label ++ String.ofList line ++ "\n" ++ note ++ annotate width places (number + 1) rest

/-- A place that spans several lines, in words. -/
def describe (place : Extent) : String :=
  "on line " ++ toString place.start.line ++ " (column " ++ toString place.start.column ++
    ") through line " ++ toString place.stop.line ++ " (column " ++
    toString (place.stop.column - 1) ++ ")\n"

/-- How a fault of a pattern is reported. -/
def report (pattern : String) (fault : Fault) : String :=
  let places := fault.extents pattern
  let lines := lines pattern
  if pattern.toList.contains '\n' then
    let count := lines.length + if pattern.toList.getLast? = some '\n' then 1 else 0
    let width := if count ≤ 1 then 0 else (toString count).length
    let divider := row '~' 79 ++ "\n"
    let wide := places.filter fun place => place.start.line ≠ place.stop.line
    "regex parse error:\n" ++ divider ++ annotate width places 1 lines ++ divider ++
      String.join (wide.map describe) ++ "error: " ++ fault.flaw.message
  else
    "regex parse error:\n" ++ annotate 0 places 1 lines ++ "error: " ++ fault.flaw.message

end Fault

end Lamina.Regex
