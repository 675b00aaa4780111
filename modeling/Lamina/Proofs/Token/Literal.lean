import Mathlib.Data.List.Chain
import Lamina.Proofs.Token.Tiling

/-!
# String literals

A string literal is written as a list of units (`StringUnit`), and each unit denotes one character,
or none: the number behind a backslash need not be that of a code point. The lexer decodes every
unit as what it denotes (`stringBody_units`) and stops at the first one that denotes nothing.
-/

namespace Lamina

namespace Lexer

variable {first : Char} {more : List Char} {units : List StringUnit}

/-- The escapes by letter: what stands behind the backslash, and what it denotes. -/
def letterEscapes : List (Char × Char) :=
  [('n', '\n'), ('t', '\t'), ('r', '\r'), ('\\', '\\'), ('"', '"'), ('\'', '\'')]

/-- A unit of a string literal. -/
inductive StringUnit
  /-- A character that stands for itself. -/
  | plain (c : Char) (hquote : c ≠ '"') (hescape : c ≠ '\\') (hnewline : c ≠ '\n')
  | letter (written value : Char) (h : (written, value) ∈ letterEscapes)
  /-- A code point in decimal, in any number of digits. -/
  | code (first : Char) (more : List Char) (hdigits : ∀ d ∈ first :: more, d.isDigit)

namespace StringUnit

/-- How a unit is written. -/
def text : StringUnit → List Char
  | plain c .. => [c]
  | letter written .. => ['\\', written]
  | code first more _ => '\\' :: first :: more

/-- The character that a unit denotes. A number denotes the Unicode scalar value that it is. -/
def denotes : StringUnit → Option Char
  | plain c .. => some c
  | letter _ value _ => some value
  | code first more _ =>
    let value := Nat.ofDigitChars 10 (first :: more) 0
    if value.isValidChar then some (Char.ofNat value) else none

/-- Does a number end before the unit behind it? -/
def Apart : StringUnit → StringUnit → Prop
  | code .., plain c .. => c.isDigit = false
  | _, _ => True

/-- The literal with the given units. -/
def literal (units : List StringUnit) : String :=
  String.ofList ('"' :: (units.flatMap text ++ ['"']))

end StringUnit

open StringUnit

theorem decimal_eq_ofDigitChars (digits : List Char) :
    decimal digits = Nat.ofDigitChars 10 digits 0 := by
  unfold decimal Nat.ofDigitChars
  congr 1
  funext n d
  rw [Nat.mul_comm]

theorem escape_of_letter {written value : Char} (h : (written, value) ∈ letterEscapes) :
    Escape [written] value ∧ written.isDigit = false := by
  simp only [letterEscapes, List.mem_cons, Prod.mk.injEq, List.not_mem_nil, or_false] at h
  rcases h with ⟨rfl, rfl⟩ | ⟨rfl, rfl⟩ | ⟨rfl, rfl⟩ | ⟨rfl, rfl⟩ | ⟨rfl, rfl⟩ | ⟨rfl, rfl⟩
  · exact ⟨.newline, rfl⟩
  · exact ⟨.tab, rfl⟩
  · exact ⟨.carriageReturn, rfl⟩
  · exact ⟨.itself (.inl rfl), rfl⟩
  · exact ⟨.itself (.inr (.inl rfl)), rfl⟩
  · exact ⟨.itself (.inr (.inr rfl)), rfl⟩

/-- A number ends where the units behind it start. -/
theorem stops_units {hdigits} (h : (code first more hdigits :: units).IsChain Apart) :
    Stops Char.isDigit (units.flatMap text) := by
  cases units with
  | nil => exact .nil _
  | cons next rest =>
    have hnext := (List.isChain_cons_cons.mp h).1
    rintro d hd
    cases next <;> cases hd
    · exact hnext
    · rfl
    · rfl

/-- Units that all denote something are the body of a literal. -/
theorem stringBody_units (h : units.IsChain Apart) (hall : ∀ unit ∈ units, unit.denotes.isSome) :
    StringBody (units.flatMap text) (units.filterMap denotes) := by
  induction units with
  | nil => exact .nil
  | cons unit rest ih =>
    obtain ⟨hunit, hrest⟩ := List.forall_mem_cons.mp hall
    have hbody := ih h.of_cons hrest
    cases unit with
    | plain c hquote hescape hnewline => exact .char hnewline hquote hescape hbody
    | letter written value hmem =>
      obtain ⟨hescape, hdigit⟩ := escape_of_letter hmem
      exact .escape hescape (endsBefore_of_not_isDigit hdigit _) hbody
    | code first more hdigits =>
      have hvalid : (decimal (first :: more)).isValidChar := by
        rw [decimal_eq_ofDigitChars]
        by_contra hinvalid
        simp [denotes, hinvalid] at hunit
      have hbody := StringBody.escape (.code hdigits hvalid) (fun _ => stops_units h) hbody
      rw [decimal_eq_ofDigitChars] at hvalid hbody
      have hdenotes : (code first more hdigits).denotes = some _ := if_pos hvalid
      rw [List.filterMap_cons_some hdenotes]
      exact hbody

/-- A number that is not that of a code point is an error, however long it is. -/
theorem scanString_invalid {rest : List Char} (hdigits : ∀ d ∈ first :: more, d.isDigit)
    (hinvalid : ¬ (decimal (first :: more)).isValidChar) (hrest : Stops Char.isDigit rest)
    (start pos : Nat) : scanString start pos ('\\' :: first :: (more ++ rest)) =
      .error (.invalidEscape first (pos + 1)) := by
  obtain ⟨hfirst, hmore⟩ := List.forall_mem_cons.mp hdigits
  obtain ⟨hn, ht, hr, hself⟩ := ne_escape_of_isDigit hfirst
  have hescape : scanEscape (pos + 1) (first :: (more ++ rest)) =
      .error (.invalidEscape first (pos + 1)) := by
    simp only [scanEscape, hn, ht, hr, hself, ↓reduceIte, hfirst,
      scanRun_stops (pos + 1 + 1) hmore hrest, hinvalid]
  rw [scanString]
  simp only [Char.reduceEq, ↓reduceIte]
  split
  · rename_i heq
    rw [hescape] at heq
    cases heq
    rfl
  · rename_i heq
    rw [hescape] at heq
    cases heq

/-- An error in a string is that of the whole text. -/
theorem lexFrom_string_error {pos cs e} (h : scanString pos (pos + 1) cs = .error e) :
    lexFrom ⟨pos, '"' :: cs⟩ = .error e := by
  have hpiece : scanPiece pos '"' cs = .error e := by
    have hblank : Text.isBlank '"' = false := by decide
    have hpunct : Punct.ofChar? '"' = none := by decide
    have hline : startsLineComment ('"' :: cs) = false := startsLineComment_of_ne (by decide)
    simp [scanPiece, scanToken, hblank, hpunct, hline, h]
  rw [lexFrom]
  split
  · rename_i heq
    cases heq
  · rename_i heq
    cases heq
    split
    · rename_i heq
      rw [hpiece] at heq
      cases heq
      rfl
    · rename_i heq
      rw [hpiece] at heq
      cases heq

end Lexer

open Lexer StringUnit

/-- **String literals are decoded exactly.** If every unit of a literal denotes a character, the
literal is one token that holds these characters. Otherwise the first number that is not that of a
code point is reported as an invalid escape, with its first digit and the place of that. -/
theorem string_literal_decodes {units : List StringUnit} (h : units.IsChain Apart) :
    ((∀ unit ∈ units, unit.denotes.isSome) →
      Token.lex (literal units) =
        .ok [⟨.str (String.ofList (units.filterMap denotes)),
            ⟨0, 2 + byteLength (units.flatMap text)⟩⟩,
          ⟨.eof, .point (2 + byteLength (units.flatMap text))⟩]) ∧
    ((∃ unit ∈ units, unit.denotes = none) →
      ∃ before first more hdigits after, units = before ++ code first more hdigits :: after ∧
        (∀ unit ∈ before, unit.denotes.isSome) ∧ (code first more hdigits).denotes = none ∧
        Token.lex (literal units) =
          .error (.invalidEscape first (2 + byteLength (before.flatMap text)))) := by
  have hlex : Token.lex (literal units) = lexFrom ⟨0, '"' :: (units.flatMap text ++ ['"'])⟩ := by
    rw [Token.lex, literal, String.toList_ofList]
  rw [hlex]
  refine ⟨fun hall => ?_, fun hbad => ?_⟩
  · have hlexeme := Lexeme.str (stringBody_units h hall)
    have htiles : Tiles 0 _ _ := .token .nil hlexeme (.nil _) (.done .nil)
    have hquote : ('"' : Char).utf8Size = 1 := rfl
    have hlength : 0 + byteLength [] + byteLength ('"' :: (units.flatMap text ++ ['"'])) =
        2 + byteLength (units.flatMap text) := by
      simp only [byteLength, byteLength_append, hquote]
      omega
    rw [hlength, List.nil_append, List.append_nil] at htiles
    exact lexFrom_of_tiles htiles
  · obtain ⟨bad, hfind⟩ : ∃ bad, units.find? (·.denotes.isNone) = some bad := by
      obtain ⟨unit, hmem, hnone⟩ := hbad
      exact Option.isSome_iff_exists.mp
        (List.find?_isSome.mpr ⟨unit, hmem, Option.isNone_iff_eq_none.mpr hnone⟩)
    obtain ⟨hnone, before, after, rfl, hbefore⟩ := List.find?_eq_some_iff_append.mp hfind
    have hall : ∀ unit ∈ before, unit.denotes.isSome := fun unit hunit => by
      simpa using hbefore unit hunit
    cases bad with
    | plain | letter => cases hnone
    | code first more hdigits =>
      have hnone : (code first more hdigits).denotes = none := Option.isNone_iff_eq_none.mp hnone
      refine ⟨before, first, more, hdigits, after, rfl, hall, hnone, lexFrom_string_error ?_⟩
      have hinvalid : ¬ (decimal (first :: more)).isValidChar := by
        rw [decimal_eq_ofDigitChars]
        intro hvalid
        simp [denotes, hvalid] at hnone
      have hstops : Stops Char.isDigit (after.flatMap text ++ ['"']) :=
        (stops_units h.right_of_append).append_cons (by decide)
      have hmore := scanString_invalid hdigits hinvalid hstops 0
      have hbackslash : Stops Char.isDigit
          ('\\' :: first :: (more ++ (after.flatMap text ++ ['"']))) :=
        (Stops.nil _).append_cons (by decide)
      have hbody := scanString_append (stringBody_units h.left_of_append hall) hbackslash 0 1
      rw [hmore] at hbody
      simpa [text, Except.map, Nat.add_comm, Nat.add_left_comm] using hbody

/-- A literal with every kind of unit, and a number with a leading zero. -/
def accentUnits : List StringUnit :=
  [.plain 'é' (by decide) (by decide) (by decide), .letter 'n' '\n' (by decide),
    .code '0' ['2', '3', '3'] (List.all_eq_true.mp rfl),
    .plain '.' (by decide) (by decide) (by decide)]

/-- A literal with a number that is that of a letter modulo the size of a word. -/
def wrappingUnits : List StringUnit :=
  [.plain 'é' (by decide) (by decide) (by decide),
    .code '4' ['2', '9', '4', '9', '6', '7', '3', '6', '1'] (List.all_eq_true.mp rfl)]

theorem accentUnits_decode :
    (literal accentUnits = "\"é\\n\\0233.\"" ∧ Token.lex (literal accentUnits) =
      .ok [⟨.str "é\né.", ⟨0, 12⟩⟩, ⟨.eof, ⟨12, 12⟩⟩]) ∧
    literal wrappingUnits = "\"é\\4294967361\"" ∧ Token.lex (literal wrappingUnits) =
      .error (.invalidEscape '4' 4) := by
  have haccent : accentUnits.IsChain Apart := by simp [accentUnits, Apart]
  have hwrapping : wrappingUnits.IsChain Apart := by simp [wrappingUnits, Apart]
  refine ⟨⟨by decide, (string_literal_decodes haccent).1 (by decide)⟩, by decide, ?_⟩
  obtain ⟨before, first, more, hdigits, after, hunits, -, -, hlex⟩ :=
    (string_literal_decodes hwrapping).2 ⟨_, List.mem_of_getLast? rfl, by decide⟩
  -- the number is the second of two units
  rcases before with _ | ⟨_, _ | ⟨_, _⟩⟩
  · cases hunits
  · cases hunits
    exact hlex
  · simp [wrappingUnits] at hunits

end Lamina
