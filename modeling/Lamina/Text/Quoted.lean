import Lamina.Text.Class.Extender
import Lamina.Text.Class.Printable

/-!
# Quoted texts

Three ways to write a text inside quotation marks. `quoteShown` keeps every printable
character and is used when a message names a string token; `escapeAscii` keeps only printable
ASCII and is used when a core graph is printed; `quoteC` writes the literal of the C language
that denotes the text's UTF-8 bytes.
-/

namespace Lamina.Text

/-- Lower-case hexadecimal digits, as few as needed. -/
def hex (n : Nat) : String := String.ofList (Nat.toDigits 16 n)

/-- Two lower-case hexadecimal digits. -/
def hexByte (b : UInt8) : String :=
  String.ofList [Nat.digitChar (b.toNat / 16), Nat.digitChar (b.toNat % 16)]

/-- Three octal digits. -/
def octalByte (b : UInt8) : String :=
  String.ofList
    [Nat.digitChar (b.toNat / 64), Nat.digitChar (b.toNat / 8 % 8), Nat.digitChar (b.toNat % 8)]

/-- A code point by number. -/
def codePoint (c : Char) : String := "\\u\x7b" ++ hex c.toNat ++ "\x7d"

/-- One character of a shown text. -/
def showChar (c : Char) : String :=
  if c = '\x00' then "\\0"
  else if c = '\t' then "\\t"
  else if c = '\r' then "\\r"
  else if c = '\n' then "\\n"
  else if c = '\\' then "\\\\"
  else if c = '"' then "\\\""
  else if isExtender c || !isPrintable c then codePoint c
  else c.toString

/-- The text in double quotes, with every character that cannot be shown as itself escaped. -/
def quoteShown (s : String) : String :=
  "\"" ++ String.join (s.toList.map showChar) ++ "\""

/-- One character of an ASCII-only text. -/
def escapeAsciiChar (c : Char) : String :=
  if c = '\t' then "\\t"
  else if c = '\r' then "\\r"
  else if c = '\n' then "\\n"
  else if c = '\'' then "\\'"
  else if c = '"' then "\\\""
  else if c = '\\' then "\\\\"
  else if 0x20 ≤ c.toNat ∧ c.toNat < 0x7f then c.toString
  else codePoint c

/-- The text with every character outside printable ASCII escaped. -/
def escapeAscii (s : String) : String :=
  String.join (s.toList.map escapeAsciiChar)

/-- The UTF-8 bytes of a text. -/
def utf8 (s : String) : List UInt8 := s.toList.flatMap String.utf8EncodeChar

/-- One byte of a C string literal. The question mark is escaped so that no trigraph can
arise, and a numeric escape has exactly three digits so that no digit after it is taken in. -/
def quoteCByte (b : UInt8) : String :=
  if b = 34 then "\\\""
  else if b = 92 then "\\\\"
  else if b = 10 then "\\n"
  else if b = 9 then "\\t"
  else if b = 13 then "\\r"
  else if b = 63 then "\\?"
  else if 0x20 ≤ b.toNat ∧ b.toNat ≤ 0x7e then (Char.ofNat b.toNat).toString
  else "\\" ++ octalByte b

/-- The C string literal for the UTF-8 bytes of a text. -/
def quoteC (s : String) : String :=
  "\"" ++ String.join ((utf8 s).map quoteCByte) ++ "\""

end Lamina.Text
