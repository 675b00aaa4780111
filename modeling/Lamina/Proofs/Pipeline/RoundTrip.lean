import Lamina.Pipeline
import Lamina.Proofs.Except
import Lamina.Proofs.Surface.ReadBack

/-!
# Reading what was printed

A printed module goes through lexing, layout and parsing and comes back as it was, up to spans. Each
stage does its part: the lexer cuts the text into the tokens that were written, layout keeps tokens
whose blocks are in braces, and the parser goes by the tokens and not by their places.
-/

namespace Lamina

open Surface Layout

variable {source : String} {tokens : List (Located Token)}

theorem parseSource_of_resolve {out} (hlex : Token.lex source = .ok tokens)
    (hlayout : resolve source tokens = .ok out) : parseSource source = parseModule out := by
  unfold parseSource
  rw [hlex]
  show resolve source tokens >>= parseModule = _
  rw [hlayout]
  rfl

/-- A text that layout keeps is parsed as its tokens, wherever they stand. -/
theorem parseSource_braced {first values} (hlex : Token.lex source = .ok tokens)
    (hvalues : tokens.map Located.value = first :: values ++ [.eof])
    (hfirst : first = .keyword .moduleKw ∨ first = .punct .lbrace)
    (hbraced : Braced 0 false (first :: values)) :
    unplacedResult (parseSource source) =
      parseModule ((first :: values ++ [Token.eof]).map fun token => ⟨token, .nowhere⟩) := by
  have hlayout := resolve_braced source hfirst hbraced hvalues
  rw [parseSource_of_resolve hlex hlayout, ← parseModule_unplaced, map_unplaced, hvalues]

/-- **Parsing undoes printing.** The text of a module that can be printed is read as that module, up
to spans. -/
theorem parseSource_print (m : Surface.Module) (h : m.isPrintable) :
    (parseSource m.print).map Module.unplaced = .ok m.unplaced := by
  obtain ⟨hspellable, hbraced, first, rest, htokens, hfirst⟩ := m.tokens_kept h
  obtain ⟨located, hlex, hvalues⟩ := Token.lex_spelled hspellable
  have hread := parseModule_tokens m h
  rw [htokens] at hbraced hvalues hread
  have hparse := parseSource_braced hlex hvalues hfirst hbraced
  exact ok_of_mapError (hparse.trans hread)

/-- A module with a dotted name, a block, both kinds of operators, the unit value, an operator as a
name, a minus, and a string with all the characters that are escaped. -/
def sampleModule : Surface.Module :=
  let id (name : String) : Ident := ⟨name, ⟨2, 7⟩⟩
  let place : Span := ⟨5, 9⟩
  let quotient : Expr := .binOp (id "div") (.var (id "a")) (.var (id "x")) place
  let text : Expr := .lit (.str "a \"b\" \\\n") place
  let inner : Expr :=
    .lambda [id "z", id "_"] (.list [.var (id "z"), .con (id "()"), text] place) place
  ⟨some (id "Data.Größe"), [],
    [.function (id "f") [id "x", id "y'"]
      (.letIn [.function (id "g") [id "a"] quotient place,
          .value (id "h") (.neg (.lit (.int 9223372036854775807) place) place) place]
        (.binOp (id ">>=") (.app (.var (id "g")) (.var (id "h")) place) inner place) place) place,
      .value (id "main")
        (.cond (.app (.var (id "-")) (.con (id "True")) place)
          (.tuple [.lit (.int 0) place, .var (id "f")] place) (.list [] place) place) place], place⟩

theorem sampleModule_read_back :
    sampleModule.isPrintable ∧
      sampleModule.print =
        "module Data . Größe where \x7b f x y' = ( let \x7b g a = ( a ` div ` x ) ; " ++
        "h = ( - 9223372036854775807 ) \x7d in ( ( g h ) >>= " ++
        "( \\ z _ -> [ z , ( ) , \"a \\\"b\\\" \\\\\\n\" ] ) ) ) ; " ++
        "main = ( if ( ( - ) True ) then ( 0 , f ) else [ ] ) \x7d" ∧
      (parseSource sampleModule.print).map Module.unplaced = .ok sampleModule.unplaced :=
  ⟨by decide +kernel, by decide +kernel, parseSource_print sampleModule (by decide +kernel)⟩

end Lamina
