import Lamina.Regex.Expr
import Lamina.Regex.Fault
import Lamina.Regex.Tree

/-!
# From patterns to expressions

Flags decide what the parts of a pattern mean. They hold from where they stand to the end of the
group around them, over the bars in it.

A pattern is about characters, or, with the flag for Unicode off, about bytes; then it may not match
a part of a character. No tables of character properties, of words and of variants of case are at
hand for characters, so patterns about characters cannot use them.
-/

namespace Lamina.Regex

/-- The flags that decide what a pattern means. -/
structure Mode where
  foldCase : Bool
  multiLine : Bool
  dotAll : Bool
  crlf : Bool
  unicode : Bool
deriving DecidableEq, Inhabited, Repr

namespace Mode

/-- The flags at the start of a pattern. -/
def start : Mode := ⟨false, false, false, false, true⟩

/-- The flags after a change. -/
def apply (mode : Mode) (change : FlagChange) : Mode where
  foldCase := change.apply .foldCase mode.foldCase
  multiLine := change.apply .multiLine mode.multiLine
  dotAll := change.apply .dotAll mode.dotAll
  crlf := change.apply .crlf mode.crlf
  unicode := change.apply .unicode mode.unicode

/-- What the members of classes are. -/
def alphabet (mode : Mode) : Alphabet := if mode.unicode then .chars else .bytes

end Mode

/-- The fault of a flaw at a place. -/
def refuse {α : Type} (flaw : Flaw) (span : Span) : Except Fault α := .error ⟨flaw, span, none⟩

/-! ## Classes -/

/-- The set with all variants of case, if case does not matter. -/
def foldSet (mode : Mode) (span : Span) (set : CharSet) : Except Fault CharSet :=
  if mode.foldCase then
    if mode.unicode then if set.closed then .ok set else refuse .foldingUnavailable span
    else .ok set.foldAscii
  else .ok set

/-- The set with all variants of case, if case does not matter, and then its complement, if it is
negated. A set of bytes may not hold parts of characters. -/
def completeSet (mode : Mode) (negated : Bool) (span : Span) (set : CharSet) :
    Except Fault CharSet := do
  let folded ← foldSet mode span set
  let result := if negated then folded.complement mode.alphabet else folded
  if mode.unicode ∨ result.isAscii then return result else refuse .invalidText span

/-- The code of a literal in a class. -/
def literalCode (mode : Mode) (l : Literal) : Except Fault Nat :=
  if mode.unicode ∨ l.char.toNat < 128 then .ok l.char.toNat
  else if l.isByte then refuse .invalidText l.span
  else refuse .unicodeRefused l.span

/-- The characters that a shorthand stands for. -/
def shorthandSet (mode : Mode) (s : Shorthand) : Except Fault CharSet :=
  if mode.unicode then refuse .shorthandUnavailable s.span
  else
    let named : NamedClass :=
      match s.kind with
      | .digit => .digit
      | .space => .space
      | .word => .word
    completeSet { mode with foldCase := false } s.negated s.span (.ofRanges named.ranges)

/-- The name of a property in its basic form: in small letters, without blanks, dashes, underscores
and characters beyond ASCII, and without a leading `is`, unless a single `c` would be left. -/
def normalName (name : String) : String :=
  let plain (cs : List Char) : List Char :=
    (cs.filter fun c => c.toNat < 128 && c ≠ ' ' && c ≠ '_' && c ≠ '-').map Char.toLower
  let cs := name.toList
  if (cs.take 2).map Char.toLower = ['i', 's'] then
    let rest := plain (cs.drop 2)
    if rest = ['c'] then "isc" else String.ofList rest
  else String.ofList (plain cs)

/-- The characters with a property. There are no tables for any; three names are known to be values
of properties. -/
def propertySet (mode : Mode) (p : Property) : Except Fault CharSet :=
  if ¬mode.unicode then refuse .unicodeRefused p.span
  else if (p.name.map normalName).any ["cf", "sc", "lc"].contains then
    refuse .propertyValueUnknown p.span
  else refuse .propertyUnknown p.span

/-- What an operator makes of two sets. -/
def SetOp.apply (op : SetOp) (alphabet : Alphabet) (a b : CharSet) : CharSet :=
  match op with
  | .intersection => a.intersection alphabet b
  | .difference => a.difference alphabet b
  | .symmetricDifference => a.symmetricDifference alphabet b

mutual

/-- Adds what stands in brackets to a set. -/
def addSet (mode : Mode) (acc : CharSet) : ClassSet → Except Fault CharSet
  | .empty _ => .ok acc
  | .literal l => do
    let code ← literalCode mode l
    return acc.push (code, code)
  | .range first last _ => do
    let low ← literalCode mode first
    let high ← literalCode mode last
    return acc.push (low, high)
  | .named name negated span => do
    return acc.union (← completeSet mode negated span (.ofRanges name.ranges))
  | .shorthand s => do return acc.union (← shorthandSet mode s)
  | .property p => do return acc.union (← propertySet mode p)
  | .bracketed negated set span => do
    let inner ← addSet mode .empty set
    return acc.union (← completeSet mode negated span inner)
  | .union items _ => addSets mode acc items
  | .combined op left right _ => do
    let a ← addSet mode .empty left
    let b ← addSet mode .empty right
    let b ← foldSet mode right.span b
    let a ← foldSet mode left.span a
    return acc.union (op.apply mode.alphabet a b)

/-- Adds several classes to a set. -/
def addSets (mode : Mode) (acc : CharSet) : List ClassSet → Except Fault CharSet
  | [] => .ok acc
  | set :: rest => do addSets mode (← addSet mode acc set) rest

end

/-! ## Patterns -/

/-- The meaning of a literal. -/
def literalExpr (mode : Mode) (l : Literal) : Except Fault Expr :=
  let code := l.char.toNat
  let single := CharSet.ofRanges [(code, code)]
  if mode.unicode then
    if mode.foldCase then refuse .foldingUnavailable l.span else .ok (.chars single)
  else if l.isByte ∧ 128 ≤ code then refuse .invalidText l.span
  else .ok (.chars (if mode.foldCase then single.foldAscii else single))

/-- The meaning of a dot: any character, or any but those that end a line. -/
def dotExpr (mode : Mode) (span : Span) : Except Fault Expr :=
  if ¬mode.unicode then refuse .invalidText span
  else
    let ends : List (Nat × Nat) :=
      if mode.dotAll then [] else if mode.crlf then [(0x0a, 0x0a), (0x0d, 0x0d)] else [(0x0a, 0x0a)]
    .ok (.chars ((CharSet.ofRanges ends).complement .chars))

/-- The meaning of a condition. -/
def anchorLook (mode : Mode) : Anchor → Look
  | .startLine =>
    if mode.multiLine then if mode.crlf then .startCrlfLine else .startLine else .startText
  | .endLine => if mode.multiLine then if mode.crlf then .endCrlfLine else .endLine else .endText
  | .startText => .startText
  | .endText => .endText
  | .boundary => if mode.unicode then .wideWord else .boundary
  | .notBoundary => if mode.unicode then .wideWord else .notBoundary
  | .wordStart => if mode.unicode then .wideWord else .wordStart
  | .wordEnd => if mode.unicode then .wideWord else .wordEnd
  | .wordStartHalf => if mode.unicode then .wideWord else .wordStartHalf
  | .wordEndHalf => if mode.unicode then .wideWord else .wordEndHalf

/-- The meaning of an atom. -/
def atomExpr (mode : Mode) : Atom → Except Fault Expr
  | .literal l => literalExpr mode l
  | .dot span => dotExpr mode span
  | .anchor kind _ => .ok (.look (anchorLook mode kind))
  | .shorthand s => return .chars (← shorthandSet mode s)
  | .property p => return .chars (← propertySet mode p)

mutual

/-- The meaning of a pattern, and the flags behind it. -/
def meaning (mode : Mode) : Tree → Except Fault (Expr × Mode)
  | .empty _ => .ok (.empty, mode)
  | .flags change _ => .ok (.empty, mode.apply change)
  | .atom a => do return (← atomExpr mode a, mode)
  | .bracketed negated set span => do
    let inner ← addSet mode .empty set
    return (.chars (← completeSet mode negated span inner), mode)
  | .repetition least most body _ => do
    let (e, mode) ← meaning mode body
    return (.ofRepetition least most e, mode)
  | .group remembered change body _ => do
    let (e, _) ← meaning (mode.apply change) body
    return (if remembered then .remembered e else e, mode)
  | .alternation branches _ => do
    let (es, mode) ← meanings mode branches
    return (.alternation es, mode)
  | .concat parts _ => do
    let (es, mode) ← meanings mode parts
    return (.concat es, mode)

/-- The meanings of patterns in order, and the flags behind them. -/
def meanings (mode : Mode) : List Tree → Except Fault (List Expr × Mode)
  | [] => .ok ([], mode)
  | tree :: rest => do
    let (e, mode) ← meaning mode tree
    let (es, mode) ← meanings mode rest
    return (e :: es, mode)

end

end Lamina.Regex
