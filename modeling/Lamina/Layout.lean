import Lamina.Text.Position
import Lamina.Token.Basic
import Lamina.Token.Error

/-!
# Layout

Indentation stands for braces and semicolons. After `where`, `let`, `do` and `of` a block opens;
if no brace follows, it is implicit and its column is that of the next token. A line that starts
at the column of the innermost block begins a new item of it, and one that starts further left
ends it. An implicit block also ends at the `in` of its `let`, at the bracket or comma that ends
the group it was opened in, at the brace that closes an explicit block around it, and at the end
of the input.

`Layout.resolve` makes all this explicit: it inserts braces and semicolons with empty spans and
keeps every token of the input up to its end.
-/

namespace Lamina.Layout

/-- An open block. An implicit one knows its column, the number of brackets around it, and
whether a `let` opened it. -/
inductive Context
  | implicit (column depth : Nat) (isLet : Bool)
  | explicit
deriving DecidableEq, Inhabited, Repr

/-- What is known before a token: the open blocks, innermost first, the number of open brackets,
the line of the token before, and whether the token has to open a block. -/
structure State where
  contexts : List Context
  depth : Nat
  line : Nat
  /-- Set if a block opens here; true if it belongs to a `let`. -/
  pending : Option Bool
deriving Inhabited, Repr

/-- A brace or semicolon that is not in the text, right before the token at `place`. -/
def inserted (mark : Punct) (place : Span) : Located Token :=
  ⟨.punct mark, .point place.start⟩

/-- Do these tokens open a block? -/
def opensBlock : Token → Bool
  | .keyword .whereKw | .keyword .letKw | .keyword .doKw | .keyword .ofKw => true
  | _ => false

/-- The column of the innermost implicit block. -/
def enclosingColumn : List Context → Option Nat
  | [] => none
  | .implicit column _ _ :: _ => some column
  | .explicit :: contexts => enclosingColumn contexts

/-- May an implicit block open at `column`? It has to be indented further than the implicit
block around it, unless braces come in between. -/
def mayNest (column : Nat) (contexts : List Context) : Bool :=
  match contexts.head?, enclosingColumn contexts with
  | some .explicit, _ => true
  | _, none => true
  | _, some outer => outer < column

/-- A line starts at `column`: ends the blocks that are indented further, and separates the new
item from the one before if it belongs to a block. -/
def startLine (column : Nat) (place : Span) : List Context → List Context × List (Located Token)
  | .implicit outer depth isLet :: contexts =>
    if column < outer then
      let (contexts, out) := startLine column place contexts
      (contexts, inserted .rbrace place :: out)
    else if column = outer then
      (.implicit outer depth isLet :: contexts, [inserted .semi place])
    else (.implicit outer depth isLet :: contexts, [])
  | contexts => (contexts, [])

/-- A bracket closes or a comma separates: ends the implicit blocks opened inside the group. -/
def endGroup (depth : Nat) (place : Span) : List Context → List Context × List (Located Token)
  | .implicit column inner isLet :: contexts =>
    if inner = depth ∧ 0 < depth then
      let (contexts, out) := endGroup depth place contexts
      (contexts, inserted .rbrace place :: out)
    else (.implicit column inner isLet :: contexts, [])
  | contexts => (contexts, [])

/-- A brace closes: ends the implicit blocks inside the explicit one, and that one. -/
def endBraces (place : Span) : List Context → List Context × List (Located Token)
  | .implicit .. :: contexts =>
    let (contexts, out) := endBraces place contexts
    (contexts, inserted .rbrace place :: out)
  | .explicit :: contexts => (contexts, [])
  | [] => ([], [])

/-- Opens the block that is due before `token`, if one is. Returns whether the start of a line is
still to be looked at. -/
def openBlock (st : State) (token : Located Token) (here : Position) :
    List Context × List (Located Token) × Bool :=
  match st.pending with
  | none => (st.contexts, [], st.line < here.line)
  | some isLet =>
    if mayNest here.column st.contexts then
      (.implicit here.column st.depth isLet :: st.contexts, [inserted .lbrace token.span], false)
    else
      (st.contexts, [inserted .lbrace token.span, inserted .rbrace token.span], true)

/-- What a token does to the open blocks by itself: the blocks and the number of brackets after
it, and the braces before it. -/
def closeBlocks (contexts : List Context) (depth : Nat) (token : Located Token) :
    List Context × Nat × List (Located Token) :=
  match token.value with
  | .keyword .inKw =>
    match contexts with
    | .implicit _ _ true :: rest => (rest, depth, [inserted .rbrace token.span])
    | _ => (contexts, depth, [])
  | .punct .lparen | .punct .lbracket => (contexts, depth + 1, [])
  | .punct .rparen | .punct .rbracket =>
    let (contexts, out) := endGroup depth token.span contexts
    (contexts, depth - 1, out)
  | .punct .comma =>
    let (contexts, out) := endGroup depth token.span contexts
    (contexts, depth, out)
  | .punct .lbrace => (.explicit :: contexts, depth, [])
  | .punct .rbrace =>
    let (contexts, out) := endBraces token.span contexts
    (contexts, depth, out)
  | _ => (contexts, depth, [])

/-- One token that is not the end: the state after it, and what is written for it. -/
def step (index : LineIndex) (st : State) (token : Located Token) : State × List (Located Token) :=
  let here := index.position token.span.start
  if st.pending.isSome ∧ token.value = .punct .lbrace then
    (⟨.explicit :: st.contexts, st.depth, here.line, none⟩, [token])
  else
    let (contexts, opened, atLineStart) := openBlock st token here
    let (contexts, separated) :=
      if atLineStart then startLine here.column token.span contexts else (contexts, [])
    let (contexts, depth, closed) := closeBlocks contexts st.depth token
    let pending :=
      if opensBlock token.value then some (token.value == .keyword .letKw) else none
    (⟨contexts, depth, here.line, pending⟩, opened ++ separated ++ closed ++ [token])

/-- The end of the input: ends all implicit blocks. An explicit one may not be open. -/
def endInput (place : Span) : List Context → Except SyntaxError (List (Located Token))
  | [] => .ok []
  | .explicit :: _ => .error (.unexpectedEnd "an explicit '\x7b' block")
  | .implicit .. :: contexts =>
    match endInput place contexts with
    | .error e => .error e
    | .ok out => .ok (inserted .rbrace place :: out)

/-- Resolves the tokens from a state on, up to the end of the input. -/
def resolveFrom (index : LineIndex) :
    State → List (Located Token) → Except SyntaxError (List (Located Token))
  | _, [] => .ok []
  | st, token :: tokens =>
    if token.value = .eof then
      match endInput token.span st.contexts with
      | .error e => .error e
      | .ok closed =>
        let opened :=
          if st.pending.isSome then [inserted .lbrace token.span, inserted .rbrace token.span]
          else []
        .ok (opened ++ closed ++ [token])
    else
      let (st, out) := step index st token
      match resolveFrom index st tokens with
      | .error e => .error e
      | .ok more => .ok (out ++ more)

/-- The state before the first token. A module without a header is one implicit block. -/
def start (tokens : List (Located Token)) : State :=
  match tokens with
  | ⟨.keyword .moduleKw, _⟩ :: _ | ⟨.punct .lbrace, _⟩ :: _ => ⟨[], 0, 0, none⟩
  | _ => ⟨[], 0, 0, some false⟩

/-- Inserts the braces and semicolons that the indentation of a text stands for. -/
def resolve (source : String) (tokens : List (Located Token)) :
    Except SyntaxError (List (Located Token)) :=
  resolveFrom (.ofText source) (start tokens) tokens

end Lamina.Layout
