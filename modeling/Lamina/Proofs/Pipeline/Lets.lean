import Lamina.Proofs.Layout.Lets
import Lamina.Proofs.Pipeline.RoundTrip

/-!
# Nested lets mean what their braces mean

A page of nested lets is read like the same program in braces, just if no let whose `in` starts a
line stands directly in the block of another let. Layout looks at such an `in` twice, and the second
look closes a block too many.
-/

namespace Lamina

open Surface Layout

/-- Where layout writes the tokens of a braced text, the two texts are read alike. -/
theorem parseSource_eq_of_resolve {source source' tokens tokens'} {page : Page}
    (hlex : Token.lex source = .ok tokens) (hlaid : page.isLaid)
    (hresolve : (resolve source tokens).map (List.map Located.value) = .ok (page.braced ++ [.eof]))
    (hlex' : Token.lex source' = .ok tokens')
    (hvalues' : tokens'.map Located.value = page.braced ++ [.eof]) :
    unplacedResult (parseSource source) = unplacedResult (parseSource source') := by
  obtain ⟨hbraced, first, rest, hcons, hfirst⟩ := Page.braced_braced hlaid
  obtain ⟨out, hout, hvalues⟩ := ok_of_map hresolve
  rw [hcons] at hbraced hvalues hvalues'
  have hlayout' := resolve_braced source' hfirst hbraced hvalues'
  rw [parseSource_of_resolve hlex hout, parseSource_of_resolve hlex' hlayout']
  exact unplacedResult_parseModule_congr (hvalues.trans hvalues'.symm)

/-- **Which nested lets mean what their braces mean.** On a page of lets nested in any way, layout
ends at each `in` the block of its own let and no other, just if the page is clear. A clear page is
parsed like every text of the same program in braces: to the same tree up to spans, or to the same
error. -/
theorem let_layout_braced_iff {source : String} {tokens : List (Located Token)} {page : Page}
    (hlex : Token.lex source = .ok tokens) (hpage : onPage source tokens = page.placed)
    (hlaid : page.isLaid) :
    ((resolve source tokens).map (List.map Located.value) = .ok (page.braced ++ [.eof]) ↔
        page.isClear) ∧
      (page.isClear → ∀ source' tokens', Token.lex source' = .ok tokens' →
        tokens'.map Located.value = page.braced ++ [.eof] →
        unplacedResult (parseSource source) = unplacedResult (parseSource source')) := by
  have hiff := Page.resolve_values_iff hpage hlaid
  refine ⟨hiff, ?_⟩
  intro hclear source' tokens' hlex' hvalues'
  exact parseSource_eq_of_resolve hlex hlaid (hiff.mpr hclear) hlex' hvalues'

-- The words of a page by their columns, for the pages written out below.
def wordAt (column : Nat) (value : Token) : Placed := ⟨value, column, false⟩

def lineAt (column : Nat) (value : Token) : Placed := ⟨value, column, true⟩

def equalsAt (column : Nat) (value : Phrase) : Phrase :=
  .word (wordAt column (.reserved .equals)) value

def nameAt (column : Nat) (id : String) : Phrase := .word (wordAt column (.varId id)) .done

/-- A let in a binding, one in brackets with two bindings, and one in a body, with `in` at both kinds
of places. -/
def nestedLets : String :=
  "main = let x = let y = 1 in y\n" ++
  "           z = [let w = x\n" ++
  "                    v = w in v]\n" ++
  "       in let u = z\n" ++
  "          in u"

/-- The same program in braces. -/
def nestedLetsBraced : String :=
  "\x7bmain = let \x7bx = let \x7by = 1\x7d in y; z = [let \x7bw = x; v = w\x7d in v]\x7d " ++
  "in let \x7bu = z\x7d in u\x7d"

/-- The page of `nestedLets`. -/
def nestedLetsPage : Page :=
  let inBinding : Phrase :=
    .letIn (wordAt 16 (.keyword .letKw))
      (.last (wordAt 20 (.varId "y")) (equalsAt 22 (.word (wordAt 24 (.int 1)) .done)))
      (wordAt 26 (.keyword .inKw)) (nameAt 29 "y")
  let inBrackets : Phrase :=
    .letIn (wordAt 17 (.keyword .letKw))
      (.cons (wordAt 21 (.varId "w")) (equalsAt 23 (nameAt 25 "x"))
        (.last (lineAt 21 (.varId "v")) (equalsAt 23 (nameAt 25 "w"))))
      (wordAt 27 (.keyword .inKw)) (nameAt 30 "v")
  let inBody : Phrase :=
    .letIn (wordAt 11 (.keyword .letKw))
      (.last (wordAt 15 (.varId "u")) (equalsAt 17 (nameAt 19 "z")))
      (lineAt 11 (.keyword .inKw)) (nameAt 14 "u")
  let brackets : Phrase :=
    .group (wordAt 16 (.punct .lbracket)) inBrackets (wordAt 31 (.punct .rbracket)) .done
  let block : Bindings :=
    .cons (wordAt 12 (.varId "x")) (equalsAt 14 inBinding)
      (.last (lineAt 12 (.varId "z")) (equalsAt 14 brackets))
  ⟨[], .last (lineAt 1 (.varId "main"))
      (equalsAt 6 (.letIn (wordAt 8 (.keyword .letKw)) block (lineAt 8 (.keyword .inKw)) inBody)),
    wordAt 15 .eof⟩

theorem nestedLets_read_alike :
    ∃ tokens, Token.lex nestedLets = .ok tokens ∧
      onPage nestedLets tokens = nestedLetsPage.placed ∧ nestedLetsPage.isLaid ∧
      nestedLetsPage.isClear ∧
      (resolve nestedLets tokens).map (List.map Located.value) =
        .ok (nestedLetsPage.braced ++ [.eof]) ∧
      unplacedResult (parseSource nestedLets) = unplacedResult (parseSource nestedLetsBraced) ∧
      (parseSource nestedLets).toOption.isSome := by
  have hlex : ((Token.lex nestedLets).toOption.map fun tokens => onPage nestedLets tokens) =
      some nestedLetsPage.placed := by
    decide +kernel
  have hlex' : ((Token.lex nestedLetsBraced).toOption.map (List.map Located.value)) =
      some (nestedLetsPage.braced ++ [.eof]) := by
    decide +kernel
  have hlaid : nestedLetsPage.isLaid := by decide +kernel
  have hclear : nestedLetsPage.isClear := by decide +kernel
  obtain ⟨tokens, htokens, hpage⟩ := Option.map_eq_some_iff.mp hlex
  obtain ⟨tokens', htokens', hvalues⟩ := Option.map_eq_some_iff.mp hlex'
  obtain ⟨hlayout, hread⟩ := let_layout_braced_iff (ok_of_toOption htokens) hpage hlaid
  exact ⟨tokens, ok_of_toOption htokens, hpage, hlaid, hclear, hlayout.mpr hclear,
    hread hclear nestedLetsBraced tokens' (ok_of_toOption htokens') hvalues, by decide +kernel⟩

/-- A let in a binding of another, each with its `in` at the start of a line. -/
def innerLet : String :=
  "main = let x = let y = 1\n" ++
  "               in y\n" ++
  "       in x"

/-- The same program in braces. -/
def innerLetBraced : String := "\x7bmain = let \x7bx = let \x7by = 1\x7d in y\x7d in x\x7d"

/-- The page of `innerLet`. -/
def innerLetPage : Page :=
  let inner : Phrase :=
    .letIn (wordAt 16 (.keyword .letKw))
      (.last (wordAt 20 (.varId "y")) (equalsAt 22 (.word (wordAt 24 (.int 1)) .done)))
      (lineAt 16 (.keyword .inKw)) (nameAt 19 "y")
  let outer : Phrase :=
    .letIn (wordAt 8 (.keyword .letKw)) (.last (wordAt 12 (.varId "x")) (equalsAt 14 inner))
      (lineAt 8 (.keyword .inKw)) (nameAt 11 "x")
  ⟨[], .last (lineAt 1 (.varId "main")) (equalsAt 6 outer), wordAt 12 .eof⟩

/-- The inner `in` closes the block of the outer let too, and the text is not parsed. -/
theorem innerLet_not_read :
    innerLetPage.isLaid ∧
      ((Token.lex innerLet).toOption.map fun tokens => onPage innerLet tokens) =
        some innerLetPage.placed ∧
      ((Token.lex innerLetBraced).toOption.map (List.map Located.value)) =
        some (innerLetPage.braced ++ [.eof]) ∧
      (parseSource innerLet).toOption.isSome = false ∧
      (parseSource innerLetBraced).toOption.isSome :=
  ⟨by decide +kernel, by decide +kernel, by decide +kernel, by decide +kernel, by decide +kernel⟩

end Lamina
