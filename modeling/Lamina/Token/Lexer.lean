import Lamina.Text.Blank
import Lamina.Text.Class.Capital
import Lamina.Text.Class.Letter
import Lamina.Text.Class.Numeral
import Lamina.Token.Basic
import Lamina.Token.Error

/-!
# Lexing

A source text is cut into pieces: runs of blanks, comments, and tokens. Each piece is as long
as its class allows. `Token.lex` keeps the tokens, each with its span, and ends them with the
token for the end of the input.

Every scanner below takes the byte offset where it starts and returns what it read with the
cursor behind it. `scanPiece_lt` says that a piece is never empty, which ends the recursion.
-/

namespace Lamina

/-- A place in a text: a byte offset and the characters from there on. -/
structure Cursor where
  pos : Nat
  rest : List Char
deriving Inhabited, Repr

namespace Lexer

/-- The characters of symbolic operators. -/
def isSymbol (c : Char) : Bool :=
  "!#$%&*+./<=>?@\\^|-~:".toList.contains c

/-- What a name may start with. -/
def isNameStart (c : Char) : Bool := Text.isLetter c || c == '_'

/-- What a name may go on with. -/
def isNamePart (c : Char) : Bool :=
  Text.isLetter c || Text.isNumeral c || c == '_' || c == '\''

/-- The longest run of characters of a class. -/
def scanRun (p : Char → Bool) (pos : Nat) (cs : List Char) : List Char × Cursor :=
  (cs.takeWhile p, ⟨pos + byteLength (cs.takeWhile p), cs.dropWhile p⟩)

/-- Two or more dashes start a comment, unless they go on as a longer operator. -/
def startsLineComment : List Char → Bool
  | '-' :: '-' :: cs =>
    match cs.dropWhile (· == '-') with
    | [] => true
    | c :: _ => !isSymbol c
  | _ => false

/-- The end of a block comment with `depth` further comments open around this place. -/
def closeComment : (depth pos : Nat) → List Char → Option Cursor
  | _, _, [] => none
  | depth, pos, '{' :: '-' :: cs => closeComment (depth + 1) (pos + 2) cs
  | 0, pos, '-' :: '}' :: cs => some ⟨pos + 2, cs⟩
  | depth + 1, pos, '-' :: '}' :: cs => closeComment depth (pos + 2) cs
  | depth, pos, c :: cs => closeComment depth (pos + c.utf8Size) cs

/-- The number that a run of decimal digits denotes. -/
def decimal (digits : List Char) : Nat :=
  digits.foldl (fun n d => n * 10 + (d.toNat - '0'.toNat)) 0

/-- The character that an escape denotes; `pos` is the byte behind the backslash. A run of
decimal digits of any length is the number of a code point. -/
def scanEscape (pos : Nat) : List Char → Except SyntaxError (Char × Cursor)
  | [] => .error (.unterminatedString pos)
  | c :: cs =>
    if c = 'n' then .ok ('\n', ⟨pos + 1, cs⟩)
    else if c = 't' then .ok ('\t', ⟨pos + 1, cs⟩)
    else if c = 'r' then .ok ('\r', ⟨pos + 1, cs⟩)
    else if c = '\\' ∨ c = '"' ∨ c = '\'' then .ok (c, ⟨pos + 1, cs⟩)
    else if c.isDigit then
      let (digits, next) := scanRun Char.isDigit (pos + 1) cs
      let code := decimal (c :: digits)
      if code.isValidChar then .ok (Char.ofNat code, next)
      else .error (.invalidEscape c pos)
    else .error (.invalidEscape c pos)

theorem length_dropWhile_le (p : Char → Bool) (cs : List Char) :
    (cs.dropWhile p).length ≤ cs.length :=
  (List.dropWhile_sublist p).length_le

theorem scanEscape_lt {pos : Nat} {cs : List Char} {d : Char} {next : Cursor}
    (h : scanEscape pos cs = .ok (d, next)) : next.rest.length < cs.length := by
  cases cs with
  | nil => simp [scanEscape] at h
  | cons c cs =>
    have hdrop := length_dropWhile_le Char.isDigit cs
    grind [scanEscape, scanRun]

/-- The rest of a string literal that starts at byte `start`. A newline may not occur in it. -/
def scanString (start pos : Nat) (cs : List Char) : Except SyntaxError (List Char × Cursor) :=
  match cs with
  | [] => .error (.unterminatedString start)
  | c :: cs =>
    if c = '\n' then .error (.unterminatedString start)
    else if c = '"' then .ok ([], ⟨pos + 1, cs⟩)
    else if c = '\\' then
      match h : scanEscape (pos + 1) cs with
      | .error e => .error e
      | .ok (d, next) =>
        have := scanEscape_lt h
        match scanString start next.pos next.rest with
        | .error e => .error e
        | .ok (text, last) => .ok (d :: text, last)
    else
      match scanString start (pos + c.utf8Size) cs with
      | .error e => .error e
      | .ok (text, last) => .ok (c :: text, last)
termination_by cs.length

/-- The quote that ends a character literal. -/
def closeQuote (start : Nat) (c : Char) (here : Cursor) : Except SyntaxError (Char × Cursor) :=
  match here.rest with
  | '\'' :: cs => .ok (c, ⟨here.pos + 1, cs⟩)
  | _ => .error (.unterminatedString start)

/-- The rest of a character literal that starts at byte `start`. -/
def scanChar (start pos : Nat) (cs : List Char) : Except SyntaxError (Char × Cursor) :=
  match cs with
  | [] => .error (.unterminatedString start)
  | c :: cs =>
    if c = '\\' then
      match scanEscape (pos + 1) cs with
      | .error e => .error e
      | .ok (d, next) => closeQuote start d next
    else if c = '\'' ∨ c = '\n' then .error (.unterminatedString start)
    else closeQuote start c ⟨pos + c.utf8Size, cs⟩

/-- The token for a name. -/
def nameToken (word : List Char) : Token :=
  let text := String.ofList word
  match Keyword.ofText? text with
  | some keyword => .keyword keyword
  | none => if word.head?.any Text.isCapital then .conId text else .varId text

/-- The token for a symbolic operator. -/
def symbolToken (word : List Char) : Token :=
  let text := String.ofList word
  match ReservedOp.ofText? text with
  | some op => .reserved op
  | none => .op text

/-- The token at a place where neither a blank nor a comment starts. -/
def scanToken (pos : Nat) (c : Char) (cs : List Char) : Except SyntaxError (Token × Cursor) :=
  match Punct.ofChar? c with
  | some mark => .ok (.punct mark, ⟨pos + c.utf8Size, cs⟩)
  | none =>
    if c = '"' then
      match scanString pos (pos + 1) cs with
      | .error e => .error e
      | .ok (text, next) => .ok (.str (String.ofList text), next)
    else if c = '\'' then
      match scanChar pos (pos + 1) cs with
      | .error e => .error e
      | .ok (d, next) => .ok (.str d.toString, next)
    else if c.isDigit then
      let (digits, next) := scanRun Char.isDigit (pos + 1) cs
      let value := decimal (c :: digits)
      if value < 9223372036854775808 then .ok (.int (Int64.ofNat value), next)
      else .error (.integerOverflow (String.ofList (c :: digits)) ⟨pos, next.pos⟩)
    else if isNameStart c then
      let (word, next) := scanRun isNamePart (pos + c.utf8Size) cs
      .ok (nameToken (c :: word), next)
    else if isSymbol c then
      let (word, next) := scanRun isSymbol (pos + c.utf8Size) cs
      .ok (symbolToken (c :: word), next)
    else .error (.unexpectedChar c pos)

/-- The piece at the start of a non-empty text: a token, or nothing for blanks and comments. -/
def scanPiece (pos : Nat) (c : Char) (cs : List Char) :
    Except SyntaxError (Option Token × Cursor) :=
  if Text.isBlank c then
    .ok (none, (scanRun Text.isBlank (pos + c.utf8Size) cs).2)
  else if c = '{' ∧ cs.head? = some '-' then
    match closeComment 0 (pos + 2) cs.tail with
    | none => .error (.unterminatedComment pos)
    | some next => .ok (none, next)
  else if startsLineComment (c :: cs) then
    .ok (none, (scanRun (· != '\n') (pos + c.utf8Size) cs).2)
  else
    match scanToken pos c cs with
    | .error e => .error e
    | .ok (token, next) => .ok (some token, next)

theorem scanString_lt {start pos : Nat} {cs text : List Char} {next : Cursor}
    (h : scanString start pos cs = .ok (text, next)) : next.rest.length < cs.length := by
  fun_induction scanString start pos cs generalizing text next <;> grind [scanEscape_lt]

theorem closeQuote_lt {start : Nat} {c d : Char} {here next : Cursor}
    (h : closeQuote start c here = .ok (d, next)) : next.rest.length < here.rest.length := by
  grind [closeQuote]

theorem scanChar_lt {start pos : Nat} {cs : List Char} {c : Char} {next : Cursor}
    (h : scanChar start pos cs = .ok (c, next)) : next.rest.length < cs.length := by
  cases cs with
  | nil => simp [scanChar] at h
  | cons d cs =>
    simp only [scanChar] at h
    split at h
    · split at h
      · simp at h
      · next hescape =>
        have := scanEscape_lt hescape
        have := closeQuote_lt h
        simp only [List.length_cons]
        omega
    · split at h
      · simp at h
      · have := closeQuote_lt h
        simp_all
        omega

theorem closeComment_le {depth pos : Nat} {cs : List Char} {next : Cursor}
    (h : closeComment depth pos cs = some next) : next.rest.length ≤ cs.length := by
  fun_induction closeComment depth pos cs <;> grind

theorem scanToken_le {pos : Nat} {c : Char} {cs : List Char} {token : Token} {next : Cursor}
    (h : scanToken pos c cs = .ok (token, next)) : next.rest.length ≤ cs.length := by
  have hdigits := length_dropWhile_le Char.isDigit cs
  have hname := length_dropWhile_le isNamePart cs
  have hsymbol := length_dropWhile_le isSymbol cs
  grind [scanToken, scanRun, → scanString_lt, → scanChar_lt]

/-- A piece is never empty. -/
theorem scanPiece_lt {pos : Nat} {c : Char} {cs : List Char} {piece : Option Token}
    {next : Cursor} (h : scanPiece pos c cs = .ok (piece, next)) :
    next.rest.length < (c :: cs).length := by
  have hblank := length_dropWhile_le Text.isBlank cs
  have hline := length_dropWhile_le (· != '\n') cs
  have htail := cs.length_tail
  grind [scanPiece, scanRun, → closeComment_le, → scanToken_le]

/-- The tokens from a place on. -/
def lexFrom (here : Cursor) : Except SyntaxError (List (Located Token)) :=
  match _hrest : here.rest with
  | [] => .ok [⟨.eof, .point here.pos⟩]
  | c :: cs =>
    match hpiece : scanPiece here.pos c cs with
    | .error e => .error e
    | .ok (piece, next) =>
      have := scanPiece_lt hpiece
      match lexFrom next with
      | .error e => .error e
      | .ok tokens =>
        match piece with
        | none => .ok tokens
        | some token => .ok (⟨token, ⟨here.pos, next.pos⟩⟩ :: tokens)
termination_by here.rest.length
decreasing_by simp_all

end Lexer

/-- The tokens of a text, ending with the token for the end of the input. -/
def Token.lex (source : String) : Except SyntaxError (List (Located Token)) :=
  Lexer.lexFrom ⟨0, source.toList⟩

end Lamina
