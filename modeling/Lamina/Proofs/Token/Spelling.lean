import Lamina.Proofs.Token.Tiling

/-!
# Spelling tokens

Every token that a text can have is spelled in one way here: a name, an operator or a mark as
itself, a number in decimal, and a string in quotes with its quotes, backslashes and newlines
escaped. `lex_spelled` says that tokens with one blank between them are read back as they are.
-/

namespace Lamina

/-- Pieces with a mark between them: the first one, and the others with the mark before each. -/
theorem intercalate_cons {α : Type} (mark : α) (piece : List α) (pieces : List (List α)) :
    [mark].intercalate (piece :: pieces) = piece ++ pieces.flatMap (mark :: ·) := by
  induction pieces generalizing piece with
  | nil => simp
  | cons second pieces ih =>
    rw [List.intercalate_cons_cons, ih]
    simp

namespace Lexer

/-- How a character is written in a string literal. -/
def escaped (c : Char) : List Char :=
  if c = '"' ∨ c = '\\' then ['\\', c] else if c = '\n' then ['\\', 'n'] else [c]

end Lexer

namespace Token

/-- Can a token stand in a text? -/
def isSpellable : Token → Bool
  | .varId name => Lexer.isVarName name
  | .conId name => Lexer.isConName name
  | .int value => 0 ≤ value.toInt
  | .op name => Lexer.isOpName name
  | .eof => false
  | .keyword _ | .str _ | .reserved _ | .punct _ => true

/-- How a token is written. -/
def spelling : Token → List Char
  | .str text => '"' :: (text.toList.flatMap Lexer.escaped ++ ['"'])
  | token => token.text.toList

/-- Tokens with one blank between them. -/
def spelled (tokens : List Token) : String :=
  String.ofList ([' '].intercalate (tokens.map spelling))

end Token

namespace Lexer

/-! ## Spellings are lexemes -/

theorem decimal_toDigits (n : Nat) : decimal (Nat.toDigits 10 n) = n := by
  have hstep : (fun n (d : Char) => n * 10 + (d.toNat - '0'.toNat)) =
      fun n d => 10 * n + (d.toNat - '0'.toNat) := by
    funext n d
    rw [Nat.mul_comm]
  unfold decimal
  rw [hstep]
  exact Nat.ofDigitChars_ten_toDigits

theorem lexeme_int {value : Int64} (h : 0 ≤ value.toInt) :
    Lexeme (Token.int value).spelling (.int value) := by
  obtain ⟨n, hn⟩ := Int.eq_ofNat_of_zero_le h
  have hspelling : (Token.int value).spelling = Nat.toDigits 10 n := by
    show (toString value.toInt).toList = _
    rw [hn]
    exact Nat.toList_repr
  have hdigits : ∀ c ∈ Nat.toDigits 10 n, c.isDigit := fun c hc =>
    Nat.isDigit_of_mem_toDigits (by decide) (by decide) hc
  have hdecimal := decimal_toDigits n
  rw [hspelling]
  cases hchars : Nat.toDigits 10 n with
  | nil => exact absurd hchars Nat.toDigits_ne_nil
  | cons c cs =>
    rw [hchars] at hdigits hdecimal
    exact .int hdigits (by rw [hn, hdecimal])

theorem stringBody_escaped (text : List Char) : StringBody (text.flatMap escaped) text := by
  induction text with
  | nil => exact .nil
  | cons c cs ih =>
    rw [List.flatMap_cons, escaped]
    split
    · rename_i hself
      have hescape : Escape [c] c := by
        refine .itself ?_
        rcases hself with hc | hc
        · exact .inr (.inl hc)
        · exact .inl hc
      refine .escape hescape (endsBefore_of_not_isDigit ?_ _) ih
      rcases hself with rfl | rfl <;> rfl
    · rename_i hself
      obtain ⟨hquote, hescape⟩ := not_or.mp hself
      split
      · rename_i hnewline
        rw [hnewline]
        exact .escape .newline (endsBefore_of_not_isDigit rfl _) ih
      · rename_i hnewline
        exact .char hnewline hquote hescape ih

/-- A token that can stand in a text has its spelling as a lexeme. -/
theorem lexeme_of_isSpellable {token : Token} (h : token.isSpellable) :
    Lexeme token.spelling token := by
  cases token with
  | keyword word => exact .keyword word
  | varId name => exact .varId h
  | conId name => exact .conId h
  | int value => exact lexeme_int (by simpa [Token.isSpellable] using h)
  | str text =>
    have hlexeme := Lexeme.str (stringBody_escaped text.toList)
    rwa [String.ofList_toList] at hlexeme
  | op name => exact .op h
  | reserved symbol => exact .reserved symbol
  | punct mark =>
    have hspelling : (Token.punct mark).spelling = [mark.char] := by
      simp [Token.spelling, Token.text]
    exact hspelling ▸ .punct mark
  | eof => simp [Token.isSpellable] at h

/-! ## Texts -/

/-- The text of tokens, each with a blank before it. -/
def blanked (tokens : List Token) : List Char := tokens.flatMap fun token => ' ' :: token.spelling

theorem stops_blanked (token : Token) (tokens : List Token) :
    Stops (goesOn token) (blanked tokens) := by
  cases tokens with
  | nil => exact .nil _
  | cons next rest =>
    intro c hc
    cases hc
    exact goesOn_blank token (by decide)

theorem tiles_blanked (tokens : List Token) (h : ∀ token ∈ tokens, token.isSpellable)
    (pos : Nat) : ∃ located, Tiles pos (blanked tokens) located ∧
      located.map Located.value = tokens ++ [.eof] := by
  induction tokens generalizing pos with
  | nil => exact ⟨_, .done .nil, rfl⟩
  | cons token rest ih =>
    obtain ⟨hfirst, hrest⟩ := List.forall_mem_cons.mp h
    obtain ⟨located, htiles, hvalues⟩ := ih hrest _
    have hspace : Gap [' '] (token.spelling ++ blanked rest) := .blank (by decide) .nil
    refine ⟨_, .token hspace (lexeme_of_isSpellable hfirst) (stops_blanked token rest) htiles, ?_⟩
    simp [hvalues]

end Lexer

open Lexer in
/-- Tokens with one blank between them are read back as they are. -/
theorem Token.lex_spelled {tokens : List Token} (h : ∀ token ∈ tokens, token.isSpellable) :
    ∃ located, Token.lex (Token.spelled tokens) = .ok located ∧
      located.map Located.value = tokens ++ [.eof] := by
  unfold Token.lex Token.spelled
  rw [String.toList_ofList]
  cases tokens with
  | nil => exact ⟨_, lexFrom_of_tiles (.done .nil), rfl⟩
  | cons token rest =>
    obtain ⟨hfirst, hrest⟩ := List.forall_mem_cons.mp h
    obtain ⟨located, htiles, hvalues⟩ := tiles_blanked rest hrest _
    rw [List.map_cons, intercalate_cons, List.flatMap_map]
    refine ⟨_, lexFrom_of_tiles
      (.token .nil (lexeme_of_isSpellable hfirst) (stops_blanked token rest) htiles), ?_⟩
    simp [hvalues]

end Lamina
