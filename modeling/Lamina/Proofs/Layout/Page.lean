import Lamina.Layout

/-!
# Pages of nested lets

A page is a module laid out without braces: bindings one below the other, whose right sides are made
of words, of groups in brackets, and of lets nested in any way. `Page.isLaid` says what is asked of
the columns and of the starts of lines, `Page.braced` writes the same program with braces and
semicolons, and `Page.isClear` tells the pages that layout understands from those that it does not.
-/

namespace Lamina.Layout

/-- A token as it stands on a page. -/
structure Placed where
  value : Token
  column : Nat
  startsLine : Bool
deriving DecidableEq, Inhabited, Repr

/-- Tokens as they stand on a page; `line` is the line of the token before them. -/
def onPageFrom (index : LineIndex) : (line : Nat) → List (Located Token) → List Placed
  | _, [] => []
  | line, token :: rest =>
    let here := index.position token.span.start
    ⟨token.value, here.column, line < here.line⟩ :: onPageFrom index here.line rest

/-- The tokens of a text as they stand on its page. -/
def onPage (source : String) (tokens : List (Located Token)) : List Placed :=
  onPageFrom (.ofText source) 0 tokens

mutual

/-- Words, groups and lets, one behind the other. What stands behind the `in` of a let is its
body. -/
inductive Phrase
  | done
  | word (token : Placed) (rest : Phrase)
  | group (opening : Placed) (inside : Phrase) (closing : Placed) (rest : Phrase)
  | letIn (letWord : Placed) (block : Bindings) (inWord : Placed) (body : Phrase)

/-- The bindings of a block, each with the word that it starts with. -/
inductive Bindings
  | last (name : Placed) (value : Phrase)
  | cons (name : Placed) (value : Phrase) (more : Bindings)

end

namespace Bindings

/-- The first word of a block. -/
def name : Bindings → Placed
  | last name _ => name
  | cons name _ _ => name

/-- The column of a block. -/
def column (block : Bindings) : Nat := block.name.column

end Bindings

/-- A module on a page: its header from `module` to `where`, if it has one, its bindings, and the
end of the input. -/
structure Page where
  header : List Placed
  block : Bindings
  stop : Placed

/-! ## Tokens -/

mutual

/-- The tokens of a phrase as they stand on the page. -/
def Phrase.placed : Phrase → List Placed
  | .done => []
  | .word token rest => token :: rest.placed
  | .group opening inside closing rest => opening :: (inside.placed ++ closing :: rest.placed)
  | .letIn letWord block inWord body => letWord :: (block.placed ++ inWord :: body.placed)

/-- The tokens of a block as they stand on the page. -/
def Bindings.placed : Bindings → List Placed
  | .last name value => name :: value.placed
  | .cons name value more => name :: (value.placed ++ more.placed)

end

mutual

/-- The tokens of a phrase with the blocks of its lets in braces. -/
def Phrase.braced : Phrase → List Token
  | .done => []
  | .word token rest => token.value :: rest.braced
  | .group opening inside closing rest =>
    opening.value :: (inside.braced ++ closing.value :: rest.braced)
  | .letIn letWord block inWord body =>
    letWord.value :: .punct .lbrace :: (block.braced ++
      .punct .rbrace :: inWord.value :: body.braced)

/-- The tokens of a block with semicolons between its bindings. -/
def Bindings.braced : Bindings → List Token
  | .last name value => name.value :: value.braced
  | .cons name value more => name.value :: (value.braced ++ .punct .semi :: more.braced)

end

namespace Page

/-- All tokens as they stand on the page. -/
def placed (page : Page) : List Placed := page.header ++ page.block.placed ++ [page.stop]

/-- The module with all its blocks in braces. -/
def braced (page : Page) : List Token :=
  page.header.map Placed.value ++ .punct .lbrace :: (page.block.braced ++ [.punct .rbrace])

end Page

/-! ## Columns -/

/-- Is a token none of those that layout looks at? -/
def isPlain : Token → Bool
  | .keyword .moduleKw | .keyword .whereKw | .keyword .letKw | .keyword .inKw | .keyword .doKw
  | .keyword .ofKw | .eof => false
  | .punct mark => mark = .backtick
  | _ => true

/-- Does a token open a group? -/
def opensGroup : Token → Bool
  | .punct .lparen | .punct .lbracket => true
  | _ => false

/-- Does a token close a group? -/
def closesGroup : Token → Bool
  | .punct .rparen | .punct .rbracket => true
  | _ => false

/-- Does a token go on with a binding? If it starts a line, it stands right of the column of the
block. `columns` are those of the blocks around it, innermost first. -/
def Placed.goesOn (token : Placed) (columns : List Nat) : Bool :=
  !token.startsLine || columns.head?.all (· < token.column)

mutual

/-- Is a phrase laid out inside the blocks with the columns given? A comma may only stand in a
group. -/
def Phrase.isLaid (columns : List Nat) (grouped : Bool) : Phrase → Bool
  | .done => true
  | .word token rest =>
    token.goesOn columns && (isPlain token.value || grouped && token.value = .punct .comma) &&
      rest.isLaid columns grouped
  | .group opening inside closing rest =>
    opening.goesOn columns && opensGroup opening.value && inside.isLaid columns true &&
      closing.goesOn columns && closesGroup closing.value && rest.isLaid columns grouped
  | .letIn letWord block inWord body =>
    letWord.goesOn columns && letWord.value = .keyword .letKw &&
      -- the block stands right of every block around it
      columns.all (· < block.column) && block.isLaid block.column columns &&
      -- `in` goes on with a line, or stands between its own block and those around it
      inWord.value = .keyword .inKw &&
      (!inWord.startsLine ||
        inWord.column < block.column && columns.all (· < inWord.column)) &&
      body.isLaid columns grouped

/-- Do all bindings of a block start at its column, and go on right of it? -/
def Bindings.isLaid (column : Nat) (outer : List Nat) : Bindings → Bool
  | .last name value =>
    isPlain name.value && name.column = column && value.isLaid (column :: outer) false
  | .cons name value more =>
    isPlain name.value && name.column = column && value.isLaid (column :: outer) false &&
      more.name.startsLine && more.isLaid column outer

end

/-- Is there no header, or one from `module` to `where`? -/
def isHeader : List Placed → Bool
  | [] => true
  | first :: rest =>
    first.value = .keyword .moduleKw && rest.getLast?.any (·.value = .keyword .whereKw) &&
      rest.dropLast.all (isPlain ·.value)

/-- Is a page laid out by columns? -/
def Page.isLaid (page : Page) : Bool :=
  isHeader page.header && page.block.isLaid page.block.column [] && page.stop.value = .eof

/-! ## Pages that layout understands -/

mutual

/-- Does no `in` start a line whose let stands directly in the block of another let? `inLet` says
whether the innermost block around the phrase is that of a let. -/
def Phrase.isClear (inLet : Bool) : Phrase → Bool
  | .done => true
  | .word _ rest => rest.isClear inLet
  | .group _ inside _ rest => inside.isClear inLet && rest.isClear inLet
  | .letIn _ block inWord body =>
    block.isClear true && !(inWord.startsLine && inLet) && body.isClear inLet

/-- The same for the bindings of a block. -/
def Bindings.isClear (inLet : Bool) : Bindings → Bool
  | .last _ value => value.isClear inLet
  | .cons _ value more => value.isClear inLet && more.isClear inLet

end

/-- Is no let whose `in` starts a line directly in the block of another let? -/
def Page.isClear (page : Page) : Bool := page.block.isClear false

end Lamina.Layout
