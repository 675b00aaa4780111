import Mathlib.Data.List.Forall2
import Mathlib.Data.String.Basic
import Lamina.Proofs.Token.Extent

/-!
# Spacing

What stands between two tokens says nothing, as long as something does. A separator is a blank and
then any blanks and comments (`Separator`); the lexemes of a text with other separators behind them
are read as the same tokens.
-/

namespace Lamina

namespace Lexer

variable {text : List Char}

/-- Blanks and comments that end by themselves, whatever stands behind them. -/
inductive Spacing : List Char → Prop
  | nil : Spacing []
  | blank {c text} (hc : Text.isBlank c) (h : Spacing text) : Spacing (c :: text)
  | line {dashes body text} (hdashes : 2 ≤ dashes) (hstart : Stops isSymbol body)
      (hbody : ∀ c ∈ body, c ≠ '\n') (h : Spacing text) :
      Spacing (List.replicate dashes '-' ++ (body ++ '\n' :: text))
  | block {inside text : List Char} (hinside : Inside inside) (h : Spacing text) :
      Spacing ('{' :: '-' :: (inside ++ '-' :: '}' :: text))

/-- A blank, and then any blanks and comments. -/
inductive Separator : List Char → Prop
  | intro {c text} (hc : Text.isBlank c) (h : Spacing text) : Separator (c :: text)

theorem Spacing.gap (h : Spacing text) (after : List Char) : Gap text after := by
  induction h with
  | nil => exact .nil
  | blank hc _ ih => exact .blank hc ih
  | line hdashes hstart hbody _ ih =>
    refine .line hdashes hstart hbody ?_ (.blank (by decide) ih)
    rintro c hc
    cases hc
    rfl
  | block hinside _ ih => exact .block hinside ih

theorem Separator.spacing (h : Separator text) : Spacing text := by
  cases h with
  | intro hc h => exact .blank hc h

/-- No token goes on in a separator. -/
theorem Separator.stops (h : Separator text) (token : Token) (after : List Char) :
    Stops (goesOn token) (text ++ after) := by
  cases h with
  | intro hc h =>
    rintro c hhead
    cases hhead
    exact goesOn_blank token hc

/-- Lexemes with a separator behind each, behind some spacing. -/
theorem tiles_separated {lexemes seps tokens} (h : List.Forall₂ Lexeme lexemes tokens)
    (hseps : ∀ sep ∈ seps, Separator sep) (hlength : seps.length = lexemes.length)
    {front : List Char} (hfront : Spacing front) (pos : Nat) :
    ∃ located, Tiles pos (front ++ (List.zipWith (· ++ ·) lexemes seps).flatten) located ∧
      located.map Located.value = tokens ++ [.eof] := by
  induction h generalizing seps front pos with
  | nil =>
    rw [List.zipWith_nil_left, List.flatten_nil, List.append_nil]
    exact ⟨_, .done (hfront.gap []), rfl⟩
  | @cons lexeme token lexemes tokens hlexeme _ ih =>
    cases seps with
    | nil => cases hlength
    | cons sep seps =>
      obtain ⟨hsep, hseps⟩ := List.forall_mem_cons.mp hseps
      -- the separator is in front of the lexemes behind it
      obtain ⟨located, htiles, hvalues⟩ := ih hseps (Nat.succ.inj hlength) hsep.spacing _
      rw [List.zipWith_cons_cons, List.flatten_cons, List.append_assoc]
      exact ⟨_, .token (hfront.gap _) hlexeme (hsep.stops token _) htiles, by simp [hvalues]⟩

/-- The part of a text at a span. -/
def lexemeAt (source : String) (span : Span) : List Char :=
  (String.Pos.Raw.extract source ⟨span.start⟩ ⟨span.stop⟩).toList

theorem utf8Len_eq_byteLength (cs : List Char) : String.utf8Len cs = byteLength cs := by
  induction cs with
  | nil => rfl
  | cons c cs ih => rw [String.utf8Len_cons, byteLength, ih, Nat.add_comm]

/-- The part of a text at the span of a token is its lexeme. -/
theorem StandsIn.lexemeAt {source token} (h : StandsIn ⟨0, source.toList⟩ token) :
    Lexeme (lexemeAt source token.span) token.value := by
  obtain ⟨before, lexeme, after, hrest, hlexeme, hspan⟩ := h.place
  have hextract := String.extract_of_valid before lexeme after
  simp only [utf8Len_eq_byteLength, ← hrest, String.ofList_toList] at hextract
  simp only [Nat.zero_add] at hspan
  rw [Lexer.lexemeAt, hspan, hextract, String.toList_ofList]
  exact hlexeme

end Lexer

open Lexer

/-- **Lexing does not depend on spacing.** Take the lexemes of a text and write any separators
behind them, one behind each: the new text has the same tokens. -/
theorem lex_respaced {source : String} {tokens : List (Located Token)} {seps : List (List Char)}
    (h : Token.lex source = .ok tokens) (hseps : ∀ sep ∈ seps, Separator sep)
    (hlength : seps.length = tokens.dropLast.length) :
    ∃ located,
      Token.lex (String.ofList (List.zipWith (· ++ ·)
        (tokens.dropLast.map fun token => lexemeAt source token.span) seps).flatten) =
          .ok located ∧
      located.map Located.value = tokens.map Located.value := by
  obtain ⟨init, rfl, hinit⟩ := lexFrom_eq h
  rw [List.dropLast_concat] at hlength ⊢
  have hlexemes : List.Forall₂ Lexeme (init.map fun token => lexemeAt source token.span)
      (init.map Located.value) := by
    rw [List.forall₂_map_left_iff, List.forall₂_map_right_iff, List.forall₂_same]
    exact fun token htoken => (hinit token htoken).lexemeAt
  obtain ⟨located, htiles, hvalues⟩ :=
    tiles_separated hlexemes hseps (hlength.trans (List.length_map _).symm) .nil 0
  refine ⟨located, ?_, by rw [hvalues, List.map_append]; rfl⟩
  rw [Token.lex, String.toList_ofList]
  exact lexFrom_of_tiles htiles

/-- A comment in a comment, and a comment of dashes that goes on up to the end of its line. -/
def noisySeparators : List (List Char) :=
  [[' ', '{', '-', '{', '-', 'a', '-', '}', '-', '}'], [' '], ['\t', '-', '-', '-', '(', '\n']]

theorem noisySeparators_separate : ∀ sep ∈ noisySeparators, Separator sep := by
  have hnested : Inside ['{', '-', 'a', '-', '}'] :=
    @Inside.nested ['a'] [] (.char (by decide) (by decide) .nil) .nil
  have hline : Spacing ['-', '-', '-', '(', '\n'] :=
    @Spacing.line 3 ['('] [] (by decide) (by simp [Stops, isSymbol]) (by simp) .nil
  refine List.forall_mem_cons.mpr ⟨.intro (by decide) (@Spacing.block _ [] hnested .nil),
    List.forall_mem_cons.mpr ⟨.intro (by decide) .nil, ?_⟩⟩
  exact List.forall_mem_singleton.mpr (.intro (by decide) hline)

theorem noisySeparators_respace :
    ∃ tokens, Token.lex "é'-->\"\\233\"" = .ok tokens ∧
      tokens.map Located.value = [.varId "é'", .op "-->", .str "é", .eof] ∧
      ∃ located, Token.lex "é' {-{-a-}-}--> \"\\233\"\t---(\n" = .ok located ∧
        located.map Located.value = tokens.map Located.value := by
  have hcheck : (Token.lex "é'-->\"\\233\"").toOption = some [⟨.varId "é'", ⟨0, 3⟩⟩,
      ⟨.op "-->", ⟨3, 6⟩⟩, ⟨.str "é", ⟨6, 12⟩⟩, ⟨.eof, ⟨12, 12⟩⟩] := by decide +kernel
  have hlex := ok_of_toOption hcheck
  obtain ⟨located, hspaced, hvalues⟩ := lex_respaced hlex noisySeparators_separate rfl
  refine ⟨_, hlex, rfl, located, ?_, hvalues⟩
  rw [← hspaced]
  exact congrArg Token.lex (by decide +kernel)

end Lamina
