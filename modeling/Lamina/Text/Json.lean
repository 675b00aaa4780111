import Lamina.Text.Quoted

/-!
# JSON text

Values of the data format and their text: two blanks a level, the fields of an object sorted by
key, and only quotes, backslashes and control characters escaped.
-/

namespace Lamina.Text

/-- A value of the format. Numbers are integers. -/
inductive Json
  | null
  | num (value : Int)
  | str (text : String)
  | arr (elems : List Json)
  | obj (fields : List (String × Json))

namespace Json

/-- An object whose fields are in the order of their keys. -/
def ofFields (fields : List (String × Json)) : Json :=
  obj (fields.mergeSort fun a b => decide (a.1 ≤ b.1))

/-- A number that counts something. -/
def ofNat (n : Nat) : Json := num n

/-- How one character stands in a string. -/
def escapeChar (c : Char) : String :=
  if c = '"' then "\\\""
  else if c = '\\' then "\\\\"
  else if c = '\n' then "\\n"
  else if c = '\r' then "\\r"
  else if c = '\t' then "\\t"
  else if c.val = 8 then "\\b"
  else if c.val = 12 then "\\f"
  else if c.val < 32 then "\\u00" ++ hexByte c.val.toUInt8
  else c.toString

/-- A string in quotes. -/
def quote (text : String) : String :=
  "\"" ++ String.join (text.toList.map escapeChar) ++ "\""

/-- The start of a line at a depth. -/
def newline (depth : Nat) : String := "\n" ++ String.ofList (List.replicate (2 * depth) ' ')

/-- Items between brackets, one a line; none leave the brackets empty. -/
def bracket (opening closing : String) (depth : Nat) (items : List String) : String :=
  if items.isEmpty then opening ++ closing
  else
    opening ++ newline (depth + 1) ++ ("," ++ newline (depth + 1)).intercalate items ++
      newline depth ++ closing

mutual

/-- The text of a value at a depth. -/
def render (depth : Nat) : Json → String
  | null => "null"
  | num value => toString value
  | str text => quote text
  | arr elems => bracket "[" "]" depth (renderElems (depth + 1) elems)
  | obj fields => bracket "\x7b" "\x7d" depth (renderFields (depth + 1) fields)

/-- The texts of the elements of an array. -/
def renderElems (depth : Nat) : List Json → List String
  | [] => []
  | elem :: rest => render depth elem :: renderElems depth rest

/-- The texts of the fields of an object. -/
def renderFields (depth : Nat) : List (String × Json) → List String
  | [] => []
  | (key, value) :: rest =>
    (quote key ++ ": " ++ render depth value) :: renderFields depth rest

end

/-- The text of a value. -/
def text (value : Json) : String := render 0 value

end Json

end Lamina.Text
