import Lamina.Text.Span

/-!
# Syntax errors

Everything that can be wrong with a source text up to its syntax tree. A lexical error knows
the byte where it arose; an error of the parser knows the span of a token, except at the end of
the input.
-/

namespace Lamina

/-- Why a text is not a program. -/
inductive SyntaxError
  | unexpectedChar (ch : Char) (pos : Nat)
  | unterminatedString (pos : Nat)
  | invalidEscape (ch : Char) (pos : Nat)
  | unterminatedComment (pos : Nat)
  | integerOverflow (text : String) (span : Span)
  | unexpectedToken (expected found : String) (span : Span)
  | unexpectedEnd (context : String)
  | unsupportedPattern (span : Span)
  | unsupportedSection (op : String) (span : Span)
  | nonAssociative (op : String) (span : Span)
deriving DecidableEq, Inhabited, Repr

namespace SyntaxError

/-- What the message of a syntax error says. -/
def message : SyntaxError → String
  | unexpectedChar ch pos =>
    "unexpected character '" ++ ch.toString ++ "' (at byte " ++ toString pos ++ ")"
  | unterminatedString pos => "unterminated string literal (at byte " ++ toString pos ++ ")"
  | invalidEscape ch pos =>
    "invalid escape sequence '\\" ++ ch.toString ++ "' (at byte " ++ toString pos ++ ")"
  | unterminatedComment pos =>
    "unterminated block comment (opened at byte " ++ toString pos ++ ")"
  | integerOverflow text _ => "integer literal '" ++ text ++ "' does not fit in 64 bits"
  | unexpectedToken expected found _ => "expected " ++ expected ++ ", found '" ++ found ++ "'"
  | unexpectedEnd context => "unexpected end of input while parsing " ++ context
  | unsupportedPattern _ =>
    "pattern matching is not supported; parameters must be plain variables"
  | unsupportedSection op _ =>
    "operator sections with an operand are not supported; write a lambda or use '(" ++ op ++ ")'"
  | nonAssociative op _ =>
    "operator '" ++ op ++ "' is non-associative and cannot be chained without parentheses"

/-- The stable code of a syntax error. -/
def code : SyntaxError → String
  | unexpectedChar .. => "E0001"
  | unterminatedString .. => "E0002"
  | invalidEscape .. => "E0003"
  | unterminatedComment .. => "E0004"
  | integerOverflow .. => "E0005"
  | unexpectedToken .. => "E0006"
  | unexpectedEnd .. => "E0007"
  | unsupportedPattern .. => "E0008"
  | unsupportedSection .. => "E0009"
  | nonAssociative .. => "E0010"

/-- Where a syntax error points. -/
def span? : SyntaxError → Option Span
  | unexpectedChar _ pos => some (.point pos)
  | unterminatedString pos => some (.point pos)
  | invalidEscape _ pos => some (.point pos)
  | unterminatedComment pos => some (.point pos)
  | integerOverflow _ span => some span
  | unexpectedToken _ _ span => some span
  | unexpectedEnd _ => none
  | unsupportedPattern span => some span
  | unsupportedSection _ span => some span
  | nonAssociative _ span => some span

end SyntaxError

end Lamina
