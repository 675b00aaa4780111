import Lamina.Regex.Bracket
import Lamina.Text.Class.Letter
import Lamina.Text.Class.Numeral

/-!
# The grammar of patterns

Reads a pattern into a tree. Alternatives are separated by bars, their parts stand side by side, and
a repetition follows its operand. The functions that nest take a bound; `parse` supplies the length
of the pattern, which no nesting exceeds, because every level takes a character.
-/

namespace Lamina.Regex

open ReadM

namespace Parser

/-! ## Repetitions -/

/-- Reads a decimal number with blanks around it. A fault is answered and not raised, because a
fault of the braces goes first. -/
def decimal : ReadM (Except Fault Nat) := do
  skipWhile Text.isBlank
  let start ← here
  let digits ← takeAllFar Char.isDigit
  let span ← since start
  let _ ← takeAllFar Text.isBlank
  if digits.isEmpty then return .error ⟨.countEmpty, span, none⟩
  else if number 10 digits < 4294967296 then return .ok (number 10 digits)
  else return .error ⟨.decimalInvalid, span, none⟩

/-- Reads the counts in braces that start at `start`, up to the closing brace. -/
def counts (start : Nat) : ReadM (Nat × Option Nat) := do
  let needMore : ReadM Unit := do
    if (← peek).isNone then fail .countUnclosed (← since start)
  advanceFar
  needMore
  let least ← decimal
  needMore
  if (← peek) = some ',' then
    advanceFar
    needMore
    if (← peek) = some '}' then return (← least, none)
    else
      let least ← least
      let most ← ← decimal
      return (least, some most)
  else
    let least ← least
    return (least, some least)

/-- The operand of the repetition at this place: the last of the parts, and those before it. -/
def operand (parts : List Tree) : ReadM (Tree × List Tree) :=
  match parts with
  | [] | .empty _ :: _ | .flags _ _ :: _ => do fail .operandMissing (← point)
  | tree :: before => return (tree, before)

/-- Moves over a question mark. -/
def skipQuestion : ReadM Unit := do
  if (← peek) = some '?' then advance

/-- Reads a repetition sign, and answers with the parts, the last of which is repeated. -/
def simpleRepetition (least : Nat) (most : Option Nat) (parts : List Tree) :
    ReadM (List Tree) := do
  let (body, before) ← operand parts
  advance
  skipQuestion
  return .repetition least most body (← since body.span.start) :: before

/-- Reads a repetition in braces, and answers with the parts, the last of which is repeated. -/
def countedRepetition (parts : List Tree) : ReadM (List Tree) := do
  let start ← here
  let (body, before) ← operand parts
  let (least, most) ← counts start
  if (← peek) = some '}' then
    advanceFar
    skipQuestion
    if most.all fun n => decide (least ≤ n) then
      return .repetition least most body (← since body.span.start) :: before
    else fail .countReversed (← since start)
  else fail .countUnclosed (← since start)

/-! ## Groups -/

/-- The start of a group, or flags for the rest of the enclosing one. -/
inductive GroupHead
  | opened (remembered : Bool) (change : FlagChange)
  | flags (change : FlagChange)

/-- May a name of a group have this character? -/
def isGroupNamePart (c : Char) : Bool :=
  c = '_' || c = '.' || c = '[' || c = ']' || Text.isLetter c || Text.isNumeral c

/-- May a name of a group start with this character? -/
def isGroupNameStart (c : Char) : Bool := c = '_' || Text.isLetter c

/-- Reads the name of a group and the angle bracket behind it. -/
def groupName : ReadM Unit := do
  let start ← here
  match ← peek with
  | none => fail .groupNameUnfinished (← point)
  | some c =>
    if c ≠ '>' ∧ ¬isGroupNameStart c then fail .groupNameInvalid (← charSpan)
    else
      let name := (← get).rest.takeWhile isGroupNamePart
      skip name.length
      match ← peek with
      | none => fail .groupNameUnfinished (← point)
      | some '>' =>
        let span ← since start
        advance
        if name.isEmpty then fail .groupNameEmpty (.point start)
        else
          match (← get).names.lookup (String.ofList name) with
          | some earlier => throw ⟨.groupNameRepeated, span, some earlier⟩
          | none => modify fun r => { r with names := (String.ofList name, span) :: r.names }
      | some _ => fail .groupNameInvalid (← charSpan)

/-- The flags that have been read, each with its place, last first. -/
structure FlagList where
  on : List (Flag × Span)
  off : List (Flag × Span)
  /-- The place of the dash between them. -/
  dash : Option Span

namespace FlagList

/-- The flags without their places. -/
def change (flags : FlagList) : FlagChange := ⟨flags.on.map (·.1), flags.off.map (·.1)⟩

/-- Adds a flag to those behind the dash, if there is one. -/
def push (flags : FlagList) (flag : Flag) (span : Span) : FlagList :=
  if flags.dash.isSome then { flags with off := (flag, span) :: flags.off }
  else { flags with on := (flag, span) :: flags.on }

/-- Where a flag stands. -/
def find? (flags : FlagList) (flag : Flag) : Option Span :=
  (flags.on ++ flags.off).lookup flag

end FlagList

/-- Reads one flag, `c`, or the dash. -/
def flag (flags : FlagList) (c : Char) : ReadM FlagList := do
  let span ← charSpan
  if c = '-' then
    match flags.dash with
    | some earlier => throw ⟨.flagNegationRepeated, span, some earlier⟩
    | none => return { flags with dash := some span }
  else
    match Flag.ofChar? c with
    | none => fail .flagUnknown span
    | some f =>
      match flags.find? f with
      | some earlier => throw ⟨.flagRepeated, span, some earlier⟩
      | none => return flags.push f span

/-- Reads flags up to a colon or a closing parenthesis, which is answered too and not read. -/
def flagList : (bound : Nat) → FlagList → ReadM (FlagList × Char)
  | 0, _ => do fail .flagsUnfinished (← point)
  | bound + 1, flags => do
    match ← peek with
    | none => fail .flagsUnfinished (← point)
    | some c =>
      if c = ':' ∨ c = ')' then
        match flags.dash, flags.off with
        | some span, [] => fail .flagNegationDangling span
        | _, _ => return (flags, c)
      else
        let flags ← flag flags c
        advance
        flagList bound flags

/-- Moves over what starts a look around, if it is there. -/
def eatLookAround : ReadM Bool := do
  if ← eat "?=" then return true
  else if ← eat "?!" then return true
  else if ← eat "?<=" then return true
  else eat "?<!"

/-- Moves over what starts the name of a group, if it is there. -/
def eatNameStart : ReadM Bool := do
  if ← eat "?P<" then return true else eat "?<"

/-- Reads the start of a group. -/
def groupHead : ReadM GroupHead := do
  let opening ← charSpan
  advanceFar
  let inner ← point
  if ← eatLookAround then fail .lookAround (← since opening.start)
  else if ← eatNameStart then
    groupName
    return .opened true ⟨[], []⟩
  else if ← eat "?" then
    if (← peek).isNone then fail .groupUnclosed opening
    else
      let (flags, stop) ← flagList ((← get).rest.length + 1) ⟨[], [], none⟩
      advance
      if stop = ':' then return .opened false flags.change
      else if flags.on.isEmpty ∧ flags.off.isEmpty then fail .operandMissing inner
      else return .flags flags.change
  else return .opened true ⟨[], []⟩

/-- Switches the treatment of blanks. -/
def applyFlags (change : FlagChange) : ReadM Unit :=
  modify fun r => { r with ignoreBlanks := change.apply .ignoreBlanks r.ignoreBlanks }

/-- Alternatives that are being read: those before the current one, and its parts, last first. -/
structure Layer where
  start : Nat
  branches : List Tree
  /-- Where the current alternative starts. -/
  branchStart : Nat
  parts : List Tree
deriving Inhabited, Repr

namespace Layer

/-- Nothing has been read since a place. -/
def opened (pos : Nat) : Layer := ⟨pos, [], pos, []⟩

/-- Adds a part. -/
def push (layer : Layer) (part : Tree) : Layer := { layer with parts := part :: layer.parts }

/-- The current alternative, if it ends here. -/
def branch (layer : Layer) (stop : Nat) : Tree :=
  match layer.parts with
  | [] => .empty ⟨layer.branchStart, stop⟩
  | [part] => part
  | parts => .concat parts.reverse ⟨layer.branchStart, stop⟩

/-- Ends the current alternative at a bar; the next one starts behind it. -/
def next (layer : Layer) (bar behind : Nat) : Layer :=
  ⟨layer.start, layer.branch bar :: layer.branches, behind, []⟩

/-- All that has been read, if it ends here. -/
def finish (layer : Layer) (stop : Nat) : Tree :=
  if layer.branches.isEmpty then layer.branch stop
  else .alternation (layer.branch stop :: layer.branches).reverse ⟨layer.start, stop⟩

end Layer

/-- Reads alternatives up to a closing parenthesis, which is not read, or the end. -/
def alternatives : (bound : Nat) → Layer → ReadM Tree
  | 0, _ => do fail .nestedTooDeep (← point)
  | bound + 1, layer => do
    skipIgnored
    match ← peek with
    | none | some ')' => return layer.finish (← here)
    | some '|' =>
      let bar ← here
      advance
      alternatives bound (layer.next bar (← here))
    | some '(' =>
      let opening ← charSpan
      match ← groupHead with
      | .flags change =>
        applyFlags change
        alternatives bound (layer.push (.flags change (← since opening.start)))
      | .opened remembered change =>
        let outside := (← get).ignoreBlanks
        applyFlags change
        let body ← alternatives bound (.opened (← here))
        if (← peek).isNone then fail .groupUnclosed opening
        else
          modify fun r => { r with ignoreBlanks := outside }
          advance
          let span ← since opening.start
          alternatives bound (layer.push (.group remembered change body span))
    | some '[' => alternatives bound (layer.push (← bracketed))
    | some '?' =>
      alternatives bound { layer with parts := ← simpleRepetition 0 (some 1) layer.parts }
    | some '*' => alternatives bound { layer with parts := ← simpleRepetition 0 none layer.parts }
    | some '+' => alternatives bound { layer with parts := ← simpleRepetition 1 none layer.parts }
    | some '{' => alternatives bound { layer with parts := ← countedRepetition layer.parts }
    | some c => alternatives bound (layer.push (.atom (← atom c)))

/-- Reads a whole pattern. -/
def whole : ReadM Tree := do
  let tree ← alternatives ((← get).rest.length + 1) (.opened 0)
  if (← peek).isSome then fail .groupUnopened (← charSpan)
  else
    match tree.beyond? maxDepth with
    | some span => fail .nestedTooDeep span
    | none => return tree

end Parser

/-- Reads a pattern. -/
def parse (pattern : String) : Except Fault Tree := Parser.whole.run' (.start pattern)

end Lamina.Regex
