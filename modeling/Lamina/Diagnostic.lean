import Lamina.Core.Error
import Lamina.Flat.Error
import Lamina.Machine.Error
import Lamina.Text.Position
import Lamina.Token.Error

/-!
# Diagnostics

The errors of all stages in one type, and how one is shown: a line with its code and message
and, if it points into the source, the line it points at with carets under the place.
-/

namespace Lamina

/-- An error of any stage. -/
inductive Error
  | parse (e : SyntaxError)
  | lower (e : Core.LowerError)
  | convert (e : Flat.ConvertError)
  | run (e : Machine.RunError)
  /-- The source could not be read. -/
  | io (detail : String)
deriving DecidableEq, Inhabited, Repr

namespace Error

/-- What an error says, with the stage it comes from. -/
def message : Error → String
  | parse e => "[syntax error] " ++ e.message
  | lower e => "[lowering error] " ++ e.message
  | convert e => "[codegen error] " ++ e.message
  | run e => "[runtime error] " ++ e.message
  | io detail => "I/O error: " ++ detail

/-- The stable code of an error. -/
def code : Error → String
  | parse e => e.code
  | lower e => e.code
  | convert e => e.code
  | run _ => "E0300"
  | io _ => "E0400"

/-- Where an error points, if anywhere. -/
def span? : Error → Option Span
  | parse e => e.span?
  | lower e => e.span?
  | _ => none

end Error

namespace Diagnostic

/-- The lines of a text without their ends. A last line without an end counts if it is not
empty. -/
def linesFrom (line : List Char) : List Char → List (List Char)
  | [] => if line.isEmpty then [] else [line.reverse]
  | '\n' :: cs => (dropReturn line).reverse :: linesFrom [] cs
  | c :: cs => linesFrom (c :: line) cs
where
  /-- A carriage return before the newline belongs to the end of the line. -/
  dropReturn : List Char → List Char
    | '\r' :: rest => rest
    | line => line

/-- The text of a line, counted from one; empty past the end. -/
def lineText (source : String) (line : Nat) : String :=
  String.ofList (((linesFrom [] source.toList)[line - 1]?).getD [])

/-- How many carets mark a span: one per character if it stays on its line, and at least
one. -/
def caretCount (source : String) (span : Span) : Nat :=
  let start := Position.scan source span.start
  if span.start < span.stop then
    let stop := Position.scan source span.stop
    if stop.line = start.line then max (stop.column - start.column) 1 else 1
  else 1

/-- A number of equal characters. -/
def pad (n : Nat) (c : Char) : String := String.ofList (List.replicate n c)

/-- The excerpt of the source under an error that points at `span`. -/
def excerpt (source : String) (span : Span) : String :=
  let start := Position.scan source span.start
  let number := toString start.line
  let gutter := pad number.length ' '
  let pointer := pad (start.column - 1) ' ' ++ pad (caretCount source span) '^'
  gutter ++ " --> " ++ number ++ ":" ++ toString start.column ++ "\n" ++
    gutter ++ " |\n" ++
    number ++ " | " ++ lineText source start.line ++ "\n" ++
    gutter ++ " | " ++ pointer ++ "\n"

end Diagnostic

/-- An error as it is shown to the user. -/
def Error.render (source : String) (e : Error) : String :=
  "error[" ++ e.code ++ "]: " ++ e.message ++ "\n" ++
    (match e.span? with
     | some span => Diagnostic.excerpt source span
     | none => "")

end Lamina
