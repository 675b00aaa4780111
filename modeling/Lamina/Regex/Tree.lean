import Lamina.Text.Span

/-!
# Patterns as trees

A pattern as it is written, with the place of each part in bytes. Whether a repetition prefers more
or fewer rounds is not kept, because it makes no difference to whether a text matches.
-/

namespace Lamina.Regex

/-- A character that stands for itself. -/
structure Literal where
  char : Char
  /-- Is it written with exactly two hexadecimal digits? Then it may stand for a byte. -/
  isByte : Bool
  span : Span
deriving DecidableEq, Inhabited, Repr

/-- The classes with an escape of their own. -/
inductive ShorthandKind
  | digit | space | word
deriving DecidableEq, Inhabited, Repr

/-- An escape for a class. -/
structure Shorthand where
  kind : ShorthandKind
  negated : Bool
  span : Span
deriving DecidableEq, Inhabited, Repr

/-- A class by a property of its characters. -/
structure Property where
  /-- The name that alone identifies the class; with a value behind it, there is none. -/
  name : Option String
  negated : Bool
  span : Span
deriving DecidableEq, Inhabited, Repr

/-- Classes of ASCII characters. -/
inductive NamedClass
  | alnum | alpha | ascii | blank | cntrl | digit | graph | lower | print | punct | space | upper
  | word | xdigit
deriving DecidableEq, Inhabited, Repr

namespace NamedClass

/-- The class with a name. -/
def ofName? (name : String) : Option NamedClass :=
  [("alnum", alnum), ("alpha", alpha), ("ascii", ascii), ("blank", blank), ("cntrl", cntrl),
    ("digit", digit), ("graph", graph), ("lower", lower), ("print", print), ("punct", punct),
    ("space", space), ("upper", upper), ("word", word), ("xdigit", xdigit)].lookup name

/-- The characters of a class, as ranges of codes. -/
def ranges : NamedClass → List (Nat × Nat)
  | alnum => [(0x30, 0x39), (0x41, 0x5a), (0x61, 0x7a)]
  | alpha => [(0x41, 0x5a), (0x61, 0x7a)]
  | ascii => [(0x00, 0x7f)]
  | blank => [(0x09, 0x09), (0x20, 0x20)]
  | cntrl => [(0x00, 0x1f), (0x7f, 0x7f)]
  | digit => [(0x30, 0x39)]
  | graph => [(0x21, 0x7e)]
  | lower => [(0x61, 0x7a)]
  | print => [(0x20, 0x7e)]
  | punct => [(0x21, 0x2f), (0x3a, 0x40), (0x5b, 0x60), (0x7b, 0x7e)]
  | space => [(0x09, 0x0d), (0x20, 0x20)]
  | upper => [(0x41, 0x5a)]
  | word => [(0x30, 0x39), (0x41, 0x5a), (0x5f, 0x5f), (0x61, 0x7a)]
  | xdigit => [(0x30, 0x39), (0x41, 0x46), (0x61, 0x66)]

end NamedClass

/-- How two classes are combined. -/
inductive SetOp
  | intersection | difference | symmetricDifference
deriving DecidableEq, Inhabited, Repr

/-- What stands in brackets. -/
inductive ClassSet
  | empty (span : Span)
  | literal (l : Literal)
  | range (first last : Literal) (span : Span)
  | named (name : NamedClass) (negated : Bool) (span : Span)
  | shorthand (s : Shorthand)
  | property (p : Property)
  | bracketed (negated : Bool) (set : ClassSet) (span : Span)
  | union (items : List ClassSet) (span : Span)
  | combined (op : SetOp) (left right : ClassSet) (span : Span)
deriving Inhabited, Repr

/-- Where a class stands. -/
def ClassSet.span : ClassSet → Span
  | literal l => l.span
  | shorthand s => s.span
  | property p => p.span
  | empty span | range _ _ span | named _ _ span | bracketed _ _ span | union _ span
  | combined _ _ _ span => span

/-- Conditions on a place in the text. -/
inductive Anchor
  | startLine | endLine | startText | endText
  | boundary | notBoundary | wordStart | wordEnd | wordStartHalf | wordEndHalf
deriving DecidableEq, Inhabited, Repr

/-- The smallest patterns. -/
inductive Atom
  | literal (l : Literal)
  | dot (span : Span)
  | anchor (kind : Anchor) (span : Span)
  | shorthand (s : Shorthand)
  | property (p : Property)
deriving DecidableEq, Inhabited, Repr

/-- Where an atom stands. -/
def Atom.span : Atom → Span
  | literal l => l.span
  | shorthand s => s.span
  | property p => p.span
  | dot span | anchor _ span => span

/-- What can be switched on and off inside a pattern. -/
inductive Flag
  | foldCase | multiLine | dotAll | swapGreed | unicode | crlf | ignoreBlanks
deriving DecidableEq, Inhabited, Repr

/-- The flag with a letter. -/
def Flag.ofChar? (c : Char) : Option Flag :=
  [('i', foldCase), ('m', multiLine), ('s', dotAll), ('U', swapGreed), ('u', unicode), ('R', crlf),
    ('x', ignoreBlanks)].lookup c

/-- A list of flags that are switched on, and of flags that are switched off. -/
structure FlagChange where
  on : List Flag
  off : List Flag
deriving DecidableEq, Inhabited, Repr

/-- What a change makes of a flag. -/
def FlagChange.apply (change : FlagChange) (flag : Flag) (old : Bool) : Bool :=
  if change.on.contains flag then true else if change.off.contains flag then false else old

/-- A pattern. -/
inductive Tree
  | empty (span : Span)
  | flags (change : FlagChange) (span : Span)
  | atom (a : Atom)
  | bracketed (negated : Bool) (set : ClassSet) (span : Span)
  | repetition (least : Nat) (most : Option Nat) (body : Tree) (span : Span)
  /-- A part in parentheses. Parts that are remembered change no flags. -/
  | group (remembered : Bool) (change : FlagChange) (body : Tree) (span : Span)
  | alternation (branches : List Tree) (span : Span)
  | concat (parts : List Tree) (span : Span)
deriving Inhabited, Repr

/-- Where a pattern stands. -/
def Tree.span : Tree → Span
  | atom a => a.span
  | empty span | flags _ span | bracketed _ _ span | repetition _ _ _ span | group _ _ _ span
  | alternation _ span | concat _ span => span

/-! ## Nesting

The depth of a part is the number of composite parts around it, itself included. -/

mutual

/-- The first part of a class that lies deeper than `free` levels. -/
def ClassSet.beyond? (free : Nat) : ClassSet → Option Span
  | .bracketed _ set span =>
    if free = 0 then some span else set.beyond? (free - 1)
  | .union items span => if free = 0 then some span else ClassSet.beyondAny? (free - 1) items
  | .combined _ left right span =>
    if free = 0 then some span
    else
      match left.beyond? (free - 1) with
      | some span => some span
      | none => right.beyond? (free - 1)
  | _ => none

/-- The first part of several classes that lies deeper than `free` levels. -/
def ClassSet.beyondAny? (free : Nat) : List ClassSet → Option Span
  | [] => none
  | set :: rest =>
    match set.beyond? free with
    | some span => some span
    | none => ClassSet.beyondAny? free rest

end

mutual

/-- The first part that lies deeper than `free` levels. -/
def Tree.beyond? (free : Nat) : Tree → Option Span
  | .bracketed _ set span => if free = 0 then some span else set.beyond? (free - 1)
  | .repetition _ _ body span | .group _ _ body span =>
    if free = 0 then some span else body.beyond? (free - 1)
  | .alternation parts span | .concat parts span =>
    if free = 0 then some span else Tree.beyondAny? (free - 1) parts
  | _ => none

/-- The first part of several patterns that lies deeper than `free` levels. -/
def Tree.beyondAny? (free : Nat) : List Tree → Option Span
  | [] => none
  | tree :: rest =>
    match tree.beyond? free with
    | some span => some span
    | none => Tree.beyondAny? free rest

end

end Lamina.Regex
