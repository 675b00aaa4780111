import Lamina.Text.Quoted

/-!
# Mangled names

A source name as part of a C identifier. Letters and digits stay, an underscore is doubled, and
every other character is written byte by byte as an underscore and two hexadecimal digits.
-/

namespace Lamina.Flat

/-- Is a character a letter or digit of a C identifier? -/
def isPlain (c : Char) : Bool :=
  ('a' ≤ c && c ≤ 'z') || ('A' ≤ c && c ≤ 'Z') || ('0' ≤ c && c ≤ '9')

/-- One character of a name. -/
def mangleChar (c : Char) : String :=
  if isPlain c then c.toString
  else if c = '_' then "__"
  else String.join ((String.utf8EncodeChar c).map fun byte => "_" ++ Text.hexByte byte)

/-- A source name as part of a C identifier. -/
def mangle (name : String) : String := String.join (name.toList.map mangleChar)

end Lamina.Flat
