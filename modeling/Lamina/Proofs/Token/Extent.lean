import Lamina.Proofs.Except
import Lamina.Proofs.Token.Tiling

/-!
# Where tokens stand

The span of a token is the place of its lexeme. So it goes from one character boundary to another,
none is empty but that of the end, which is the last token and no other, and spans come one after
the other.
-/

namespace Lamina

namespace Lexer

variable {here : Cursor} {token : Located Token} {pos : Nat} {text : List Char}
  {tokens : List (Located Token)}

/-- A token of a text: its lexeme is where its span says. -/
structure StandsIn (here : Cursor) (token : Located Token) : Prop where
  place : ∃ before lexeme after, here.rest = before ++ lexeme ++ after ∧
    Lexeme lexeme token.value ∧
    token.span = ⟨here.pos + byteLength before, here.pos + byteLength before + byteLength lexeme⟩

theorem StandsIn.ne_eof (h : StandsIn here token) : token.value ≠ .eof := by
  obtain ⟨_, _, _, _, hlexeme, _⟩ := h.place
  exact hlexeme.ne_eof

theorem StandsIn.behind {middle taken} (h : here.Reads taken middle)
    (htoken : StandsIn middle token) : StandsIn here token := by
  obtain ⟨before, lexeme, after, hrest, hlexeme, hspan⟩ := htoken.place
  refine ⟨taken ++ before, lexeme, after, ?_, hlexeme, ?_⟩
  · rw [h.rest, hrest]
    simp only [List.append_assoc]
  · rw [hspan, h.pos, byteLength_append, Nat.add_assoc here.pos]

/-- The tokens of a tiling, each at its place, and the end behind them. -/
theorem Tiles.standsIn (h : Tiles pos text tokens) :
    ∃ init, tokens = init ++ [⟨.eof, .point (pos + byteLength text)⟩] ∧
      ∀ token ∈ init, StandsIn ⟨pos, text⟩ token := by
  induction h with
  | done => exact ⟨[], rfl, nofun⟩
  | @token pos gap lexeme after token more hgap hlexeme hend _ ih =>
    obtain ⟨init, rfl, hinit⟩ := ih
    have hlength : pos + byteLength gap + byteLength lexeme + byteLength after =
        pos + byteLength (gap ++ (lexeme ++ after)) := by
      rw [byteLength_append, byteLength_append]
      omega
    rw [hlength]
    refine ⟨_ :: init, rfl, List.forall_mem_cons.mpr ⟨?_, ?_⟩⟩
    · exact ⟨gap, lexeme, after, (List.append_assoc ..).symm, hlexeme, rfl⟩
    · have hreads : Cursor.Reads ⟨pos, gap ++ (lexeme ++ after)⟩ (gap ++ lexeme)
          ⟨pos + byteLength gap + byteLength lexeme, after⟩ :=
        ⟨(List.append_assoc ..).symm, by rw [byteLength_append, Nat.add_assoc]⟩
      exact fun token htoken => (hinit token htoken).behind hreads

/-- The tokens of a text, each at its place, and the end behind them. -/
theorem lexFrom_eq (h : lexFrom here = .ok tokens) :
    ∃ init, tokens = init ++ [⟨.eof, .point (here.pos + byteLength here.rest)⟩] ∧
      ∀ token ∈ init, StandsIn here token :=
  ((lexFrom_ok_iff _ _).mp h).standsIn

/-- A span is over before another starts. -/
def Precedes (one two : Located Token) : Prop :=
  one.span.start < two.span.start ∧ one.span.stop ≤ two.span.start

theorem Tiles.le_start (h : Tiles pos text tokens) (htoken : token ∈ tokens) :
    pos ≤ token.span.start := by
  obtain ⟨init, rfl, hinit⟩ := h.standsIn
  rcases List.mem_append.mp htoken with htoken | htoken
  · obtain ⟨_, _, _, _, _, hspan⟩ := (hinit token htoken).place
    rw [hspan]
    exact Nat.le_add_right _ _
  · rw [List.mem_singleton.mp htoken]
    exact Nat.le_add_right _ _

theorem Tiles.pairwise (h : Tiles pos text tokens) : tokens.Pairwise Precedes := by
  induction h with
  | done => exact List.pairwise_singleton _ _
  | @token pos gap lexeme after token more _ hlexeme _ hmore ih =>
    refine List.pairwise_cons.mpr ⟨fun other hother => ?_, ih⟩
    have hstart := hmore.le_start hother
    have hpos := byteLength_pos hlexeme.ne_nil
    exact ⟨by simp only; omega, hstart⟩

/-- A byte behind the first characters of a text is a character boundary. -/
theorem isValid_byteLength {source before after} (h : source.toList = before ++ after) :
    String.Pos.Raw.IsValid source ⟨byteLength before⟩ :=
  isValid_iff.mpr ⟨before, after, h, rfl⟩

end Lexer

open Lexer

/-- **Tokens tile their source.** The source is made up of the lexemes of the tokens and of gaps
with blanks and comments only; no name, operator or number could be longer. The spans of the tokens
go from one character boundary to another. They come one after the other, and none of them is empty
but the last, which stands at the end of the source. A lexeme belongs to one token only. -/
theorem lexed_tokens_tile_source {source : String} {tokens : List (Located Token)}
    (h : Token.lex source = .ok tokens) :
    Tiles 0 source.toList tokens ∧
      (∃ init, tokens = init ++ [⟨.eof, .point source.utf8ByteSize⟩] ∧
        ∀ token ∈ init, token.value ≠ .eof ∧ token.span.start < token.span.stop) ∧
      tokens.Pairwise Precedes ∧
      (∀ token ∈ tokens, String.Pos.Raw.IsValid source ⟨token.span.start⟩ ∧
        String.Pos.Raw.IsValid source ⟨token.span.stop⟩) ∧
      ∀ lexeme one two, Lexeme lexeme one → Lexeme lexeme two → one = two := by
  have htiles : Tiles 0 source.toList tokens := (lexFrom_ok_iff _ _).mp h
  obtain ⟨init, htokens, hinit⟩ := htiles.standsIn
  have hsize : byteLength source.toList = source.utf8ByteSize := by
    rw [← utf8ByteSize_ofList, String.ofList_toList]
  rw [Nat.zero_add, hsize] at htokens
  refine ⟨htiles, ⟨init, htokens, fun token htoken => ?_⟩, htiles.pairwise, fun token htoken => ?_,
    fun _ _ _ hone htwo => hone.unique htwo⟩
  · obtain ⟨before, lexeme, after, _, hlexeme, hspan⟩ := (hinit token htoken).place
    have hpos := byteLength_pos hlexeme.ne_nil
    refine ⟨hlexeme.ne_eof, ?_⟩
    rw [hspan]
    simp only
    omega
  · rw [htokens] at htoken
    rcases List.mem_append.mp htoken with htoken | htoken
    · obtain ⟨before, lexeme, after, hsource, _, hspan⟩ := (hinit token htoken).place
      simp only [Nat.zero_add, ← byteLength_append] at hspan
      rw [hspan]
      have hstart : source.toList = before ++ (lexeme ++ after) := by
        rw [← List.append_assoc]
        exact hsource
      exact ⟨isValid_byteLength hstart, isValid_byteLength hsource⟩
    · have hend := isValid_byteLength (List.append_nil source.toList).symm
      rw [hsize] at hend
      rw [List.mem_singleton.mp htoken]
      exact ⟨hend, hend⟩

/-- A text with characters of two bytes, a comment in a comment, dashes that are an operator, primes
in a name and around a character, an escape by number, and a comment at the end. -/
def tilesText : String := "é' --> 'é'{- a {-b-} é-}007\"\\233.\"-- end"

theorem tilesText_tiled :
    ∃ tokens, Token.lex tilesText = .ok tokens ∧
      tokens = [⟨.varId "é'", ⟨0, 3⟩⟩, ⟨.op "-->", ⟨4, 7⟩⟩, ⟨.str "é", ⟨8, 12⟩⟩, ⟨.int 7, ⟨27, 30⟩⟩,
        ⟨.str "é.", ⟨30, 37⟩⟩, ⟨.eof, ⟨43, 43⟩⟩] ∧
      Tiles 0 tilesText.toList tokens := by
  have hcheck : (Token.lex tilesText).toOption =
      some [⟨.varId "é'", ⟨0, 3⟩⟩, ⟨.op "-->", ⟨4, 7⟩⟩, ⟨.str "é", ⟨8, 12⟩⟩, ⟨.int 7, ⟨27, 30⟩⟩,
        ⟨.str "é.", ⟨30, 37⟩⟩, ⟨.eof, ⟨43, 43⟩⟩] := by
    decide +kernel
  exact ⟨_, ok_of_toOption hcheck, rfl, (lexed_tokens_tile_source (ok_of_toOption hcheck)).1⟩

end Lamina
