import Lamina.Text.Span
import Lamina.Text.Quoted

/-!
# Tokens

The tokens of the source language: keywords, names, literals, operators, the operators with a
fixed meaning, and punctuation. Layout adds braces and semicolons of its own; they are ordinary
tokens with an empty span.
-/

namespace Lamina

/-- The reserved words. -/
inductive Keyword
  | caseKw | classKw | dataKw | defaultKw | derivingKw | doKw | elseKw | foreignKw | ifKw
  | importKw | inKw | infixKw | infixlKw | infixrKw | instanceKw | letKw | moduleKw | newtypeKw
  | ofKw | thenKw | typeKw | whereKw
deriving DecidableEq, Inhabited, Repr

namespace Keyword

/-- How a reserved word is spelled. -/
def text : Keyword → String
  | caseKw => "case"
  | classKw => "class"
  | dataKw => "data"
  | defaultKw => "default"
  | derivingKw => "deriving"
  | doKw => "do"
  | elseKw => "else"
  | foreignKw => "foreign"
  | ifKw => "if"
  | importKw => "import"
  | inKw => "in"
  | infixKw => "infix"
  | infixlKw => "infixl"
  | infixrKw => "infixr"
  | instanceKw => "instance"
  | letKw => "let"
  | moduleKw => "module"
  | newtypeKw => "newtype"
  | ofKw => "of"
  | thenKw => "then"
  | typeKw => "type"
  | whereKw => "where"

/-- Every reserved word. -/
def all : List Keyword :=
  [caseKw, classKw, dataKw, defaultKw, derivingKw, doKw, elseKw, foreignKw, ifKw, importKw, inKw,
    infixKw, infixlKw, infixrKw, instanceKw, letKw, moduleKw, newtypeKw, ofKw, thenKw, typeKw,
    whereKw]

/-- The reserved word with a given spelling. -/
def ofText? (word : String) : Option Keyword := all.find? (·.text == word)

end Keyword

/-- The symbolic operators with a fixed meaning, which cannot be defined. -/
inductive ReservedOp
  | equals | backslash | pipe | arrow | leftArrow | doubleColon | fatArrow | dotDot | atSign
  | tilde
deriving DecidableEq, Inhabited, Repr

namespace ReservedOp

/-- How a reserved operator is spelled. -/
def text : ReservedOp → String
  | equals => "="
  | backslash => "\\"
  | pipe => "|"
  | arrow => "->"
  | leftArrow => "<-"
  | doubleColon => "::"
  | fatArrow => "=>"
  | dotDot => ".."
  | atSign => "@"
  | tilde => "~"

/-- Every reserved operator. -/
def all : List ReservedOp :=
  [equals, backslash, pipe, arrow, leftArrow, doubleColon, fatArrow, dotDot, atSign, tilde]

/-- The reserved operator with a given spelling. -/
def ofText? (word : String) : Option ReservedOp := all.find? (·.text == word)

end ReservedOp

/-- Punctuation: marks that are tokens on their own. -/
inductive Punct
  | lparen | rparen | lbracket | rbracket | lbrace | rbrace | comma | semi | backtick
deriving DecidableEq, Inhabited, Repr

namespace Punct

/-- The character of a mark. -/
def char : Punct → Char
  | lparen => '('
  | rparen => ')'
  | lbracket => '['
  | rbracket => ']'
  | lbrace => '\x7b'
  | rbrace => '\x7d'
  | comma => ','
  | semi => ';'
  | backtick => '\x60'

/-- Every mark. -/
def all : List Punct :=
  [lparen, rparen, lbracket, rbracket, lbrace, rbrace, comma, semi, backtick]

/-- The mark with a given character. -/
def ofChar? (c : Char) : Option Punct := all.find? (·.char == c)

end Punct

/-- A token of the source language. -/
inductive Token
  | keyword (word : Keyword)
  /-- A name in lower case, or the underscore. -/
  | varId (name : String)
  /-- A name in upper case: a constructor, a type or a module. -/
  | conId (name : String)
  | int (value : Int64)
  /-- A string, or a character literal: the language has one type for both. -/
  | str (text : String)
  /-- A symbolic operator that is not reserved. -/
  | op (name : String)
  | reserved (symbol : ReservedOp)
  | punct (mark : Punct)
  /-- The end of the input. -/
  | eof
deriving DecidableEq, Inhabited, Repr

/-- How messages name a token. -/
def Token.text : Token → String
  | keyword word => word.text
  | varId name => name
  | conId name => name
  | int value => toString value.toInt
  | str text => Text.quoteShown text
  | op name => name
  | reserved symbol => symbol.text
  | punct mark => mark.char.toString
  | eof => "<eof>"

end Lamina
