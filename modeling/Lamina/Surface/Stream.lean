import Lamina.Surface.Tree
import Lamina.Token.Basic
import Lamina.Token.Error

/-!
# Token streams

A parser reads a stream of tokens from left to right and answers with a value and the rest of
the stream, or with a syntax error. Past its last token a stream goes on with the end of the
input for ever. A parser that nests works within a bound on the nesting; the third answer,
`exhausted`, says that the bound was too small, and is no statement about the tokens.
-/

namespace Lamina.Surface

/-- What is left to read, and the place of the token read last. -/
structure Stream where
  prev : Option Span
  rest : List (Located Token)
deriving Inhabited, Repr

namespace Stream

/-- The stream of all the tokens. -/
def ofTokens (tokens : List (Located Token)) : Stream := ⟨none, tokens⟩

/-- The token `n` places ahead. -/
def peekAt (s : Stream) (n : Nat) : Token :=
  match s.rest[n]? with
  | some token => token.value
  | none => .eof

/-- The next token. -/
def peek (s : Stream) : Token :=
  match s.rest with
  | token :: _ => token.value
  | [] => .eof

/-- Where the next token stands; past the end, where the last one does. -/
def here (s : Stream) : Span :=
  match s.rest with
  | token :: _ => token.span
  | [] => s.prev.getD (.point 0)

/-- Where the token before stands; at the start, where the next one does. -/
def before (s : Stream) : Span := s.prev.getD s.here

/-- The stream without its next token. -/
def tail (s : Stream) : Stream :=
  match s.rest with
  | token :: rest => ⟨some token.span, rest⟩
  | [] => s

/-- The stream without its next `n` tokens. -/
def drop (s : Stream) : Nat → Stream
  | 0 => s
  | n + 1 => s.tail.drop n

/-- Reading a token leaves one less, if there is one. -/
theorem length_tail (s : Stream) : s.tail.rest.length = s.rest.length - 1 := by
  unfold tail
  split <;> simp_all

/-- Splits off the names at the front of the tokens. -/
def splitNames (prev : Option Span) : List (Located Token) → List Ident × Stream
  | ⟨.varId name, span⟩ :: rest =>
    let (ids, s) := splitNames (some span) rest
    (⟨name, span⟩ :: ids, s)
  | rest => ([], ⟨prev, rest⟩)

/-- The rest behind the semicolons at the front of the tokens. -/
def dropSemis (prev : Option Span) : List (Located Token) → Stream
  | ⟨.punct .semi, span⟩ :: rest => dropSemis (some span) rest
  | rest => ⟨prev, rest⟩

/-- The operator at the front, and how many tokens it is: a symbol, or a name in backticks. -/
def operator? (s : Stream) : Option (Ident × Nat) :=
  match s.rest with
  | ⟨.op name, span⟩ :: _ => some (⟨name, span⟩, 1)
  | ⟨.punct .backtick, _⟩ :: ⟨.varId name, span⟩ :: ⟨.punct .backtick, _⟩ :: _ =>
    some (⟨name, span⟩, 3)
  | _ => none

end Stream

/-- What a parser answers. -/
inductive Outcome (α : Type)
  | done (value : α) (rest : Stream)
  | failed (error : SyntaxError)
  /-- The nesting went beyond the bound. -/
  | exhausted

/-- A parser of `α`. -/
def Parser (α : Type) := Stream → Outcome α

namespace Parser

/-- The parser that reads nothing. -/
def pure {α : Type} (value : α) : Parser α := fun s => .done value s

/-- Runs a parser, and another one on the rest. -/
def bind {α β : Type} (p : Parser α) (f : α → Parser β) : Parser β := fun s =>
  match p s with
  | .done value rest => f value rest
  | .failed e => .failed e
  | .exhausted => .exhausted

instance : Monad Parser where
  pure := pure
  bind := bind

instance {α : Type} : Inhabited (Parser α) := ⟨fun _ => .exhausted⟩

/-- Gives up because the bound on nesting is reached. -/
def outOfFuel {α : Type} : Parser α := fun _ => .exhausted

/-- Fails. -/
def fail {α : Type} (e : SyntaxError) : Parser α := fun _ => .failed e

/-- Looks at the stream without reading. -/
def look {α : Type} (f : Stream → α) : Parser α := fun s => .done (f s) s

/-- The next token, unread. -/
def peek : Parser Token := look Stream.peek

/-- Where the next token stands. -/
def here : Parser Span := look Stream.here

/-- Where the token before stands. -/
def before : Parser Span := look Stream.before

/-- Reads one token and answers where it stood. -/
def advance : Parser Span := fun s => .done s.here s.tail

/-- Reads `n` tokens. -/
def skip (n : Nat) : Parser Unit := fun s => .done () (s.drop n)

/-- Goes on with another stream. -/
def jump (f : Stream → Stream) : Parser Unit := fun s => .done () (f s)

/-- Fails at the next token, where something else was expected. -/
def unexpected {α : Type} (expected : String) : Parser α := fun s =>
  match s.peek with
  | .eof => .failed (.unexpectedEnd expected)
  | token => .failed (.unexpectedToken expected token.text s.here)

/-- Reads the token given, and no other. -/
def expect (token : Token) : Parser Span := do
  if (← peek) = token then advance else unexpected ("'" ++ token.text ++ "'")

/-- Reads the token given if it comes next. -/
def eat (token : Token) : Parser Bool := do
  if (← peek) = token then
    let _ ← advance
    return true
  else return false

/-- Reads a name in lower case. -/
def expectName : Parser Ident := do
  match ← peek with
  | .varId name => return ⟨name, ← advance⟩
  | _ => unexpected "identifier"

/-- Reads as many names in lower case as there are. -/
def names : Parser (List Ident) := fun s =>
  let (ids, rest) := Stream.splitNames s.prev s.rest
  .done ids rest

end Parser

end Lamina.Surface
