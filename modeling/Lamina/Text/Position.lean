import Lamina.Text.Span

/-!
# Lines and columns

A position is a line and a column, both counted from one, the column in characters. It is
computed in two ways. `Position.scan` walks the text and serves diagnostics. `LineIndex` is
built once per text, finds the line by bisection, and serves layout, which asks for the
position of every token.
-/

namespace Lamina

/-- A line and a column, both counted from one. -/
structure Position where
  line : Nat
  column : Nat
deriving DecidableEq, Inhabited, Repr

namespace Position

/-- Walks the characters that start before byte `target`; `here` is the position of the first
of them, which starts at byte `offset`. -/
def scanFrom (target : Nat) : Nat → Position → List Char → Position
  | _, here, [] => here
  | offset, here, c :: cs =>
    if target ≤ offset then here
    else
      scanFrom target (offset + c.utf8Size)
        (if c = '\n' then ⟨here.line + 1, 1⟩ else ⟨here.line, here.column + 1⟩) cs

/-- The position of a byte offset; past the end it is the position of the end, and inside a
character that of the next one. -/
def scan (source : String) (byte : Nat) : Position :=
  scanFrom byte 0 ⟨1, 1⟩ source.toList

end Position

/-- The lines of a text: for each, the byte offset where it starts and the text from there
on. -/
structure LineIndex where
  lines : Array (Nat × List Char)
  size : Nat

namespace LineIndex

/-- The starts of the lines after the current one, in order. -/
def linesFrom : Nat → List Char → List (Nat × List Char)
  | _, [] => []
  | offset, c :: cs =>
    if c = '\n' then (offset + 1, cs) :: linesFrom (offset + 1) cs
    else linesFrom (offset + c.utf8Size) cs

/-- The index of a text. -/
def ofText (source : String) : LineIndex where
  lines := ((0, source.toList) :: linesFrom 0 source.toList).toArray
  size := byteLength source.toList

/-- Bisection: the last line in `[lo, hi)` that starts at or before `byte`, if line `lo`
does. -/
def lineFrom (index : LineIndex) (byte lo hi : Nat) : Nat :=
  if _ : lo + 1 < hi then
    match index.lines[(lo + hi) / 2]? with
    | none => lo
    | some (start, _) =>
      if start ≤ byte then lineFrom index byte ((lo + hi) / 2) hi
      else lineFrom index byte lo ((lo + hi) / 2)
  else lo
termination_by hi - lo

/-- How many characters fill exactly `bytes` bytes, if the cut falls between two
characters. -/
def charsIn : Nat → List Char → Option Nat
  | 0, _ => some 0
  | _ + 1, [] => none
  | bytes + 1, c :: cs =>
    if c.utf8Size ≤ bytes + 1 then
      (charsIn (bytes + 1 - c.utf8Size) cs).map (· + 1)
    else none

/-- The position of a byte offset. An offset past the end counts as the end, and one inside a
character has column one. -/
def position (index : LineIndex) (byte : Nat) : Position :=
  let byte := min byte index.size
  let line := index.lineFrom byte 0 index.lines.size
  match index.lines[line]? with
  | none => ⟨line + 1, 1⟩
  | some (start, text) => ⟨line + 1, (charsIn (byte - start) text).getD 0 + 1⟩

end LineIndex

end Lamina
