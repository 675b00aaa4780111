import Lamina.Pipeline
import Lamina.Proofs.Layout.Insertion
import Lamina.Proofs.Surface.Progress
import Lamina.Proofs.Token.Extent
import Lamina.Proofs.Token.Faults

/-!
# Trees that come from a text

A promise about names and places goes from the characters of a text through layout to the tokens
that are parsed (`resolved_laid`). So the tree of a text is one that a text can have, with its spans
nested in it (`parseSource_tree`), and an error points at places between characters
(`parseSource_error`).
-/

namespace Lamina.Surface

variable {tokens out : List (Located Token)} {contexts : List Layout.Context}

theorem plain_of_lexeme {lexeme token} (h : Lexer.Lexeme lexeme token) : PlainToken token := by
  cases h with
  | @varId name h =>
    rintro ⟨rest, hrest⟩
    -- a name goes on with characters of names, and `@` is none
    have hat : Lexer.isNamePart '@' := by
      simp only [Lexer.isVarName, Lexer.isWord, ← hrest, List.cons_append, List.all_cons,
        Bool.and_eq_true] at h
      exact h.1.1.2.1
    cases hat
  | @op name h =>
    rintro ⟨rest, hrest⟩
    have hline : Lexer.isSymbol '_' := by
      simp only [Lexer.isOpName, ← hrest, List.cons_append, List.all_cons, Bool.and_eq_true] at h
      exact h.1.1.2.1
    cases hline
  | _ => trivial

theorem plain_lexFrom {here : Cursor} (h : Lexer.lexFrom here = .ok tokens) :
    PlainTokens tokens := by
  obtain ⟨init, rfl, hinit⟩ := Lexer.lexFrom_eq h
  refine .append (fun token htoken => ?_) (.cons trivial .nil)
  obtain ⟨_, _, _, _, hlexeme, _⟩ := (hinit token htoken).place
  exact plain_of_lexeme hlexeme

theorem plain_marks {column depth semis place after}
    (h : Layout.Marks column depth place semis contexts after out) : PlainTokens out := by
  induction h with
  | done => exact .nil
  | opened _ _ ih | closed _ _ _ _ ih | separated _ _ _ ih => exact .cons trivial ih

/-- Layout adds braces and semicolons only. -/
theorem plain_interleaved {index : LineIndex} (h : Layout.Interleaved index contexts tokens out)
    (htokens : PlainTokens tokens) : PlainTokens out := by
  induction h with
  | done => exact .nil
  | token hmarks _ ih =>
    exact .append (plain_marks hmarks) (.cons htokens.head (ih htokens.tail))

theorem upToEnd_subset (tokens : List (Located Token)) : Layout.upToEnd tokens ⊆ tokens := by
  induction tokens with
  | nil => exact List.Subset.refl []
  | cons token rest ih =>
    unfold Layout.upToEnd
    split
    · simp
    · exact List.cons_subset_cons token ih

/-! ## Places -/

variable {mark : Nat → Prop} {low low' pos : Nat} {text : List Char}

theorem Stream.Spaced.widen (h : Stream.Spaced mark low tokens) (hle : low' ≤ low) :
    Stream.Spaced mark low' tokens := by
  cases tokens with
  | nil => trivial
  | cons token rest => exact ⟨h.1.widen hle (Nat.le_refl _), h.2⟩

theorem spaced_tiles (h : Lexer.Tiles pos text tokens) (hmark : Cursor.Marked mark ⟨pos, text⟩) :
    Stream.Spaced mark pos tokens := by
  induction h with
  | @done pos gap _ =>
    have hend := hmark gap [] (List.append_nil gap).symm
    exact ⟨⟨Nat.le_add_right _ _, Nat.le_refl _, Nat.le_refl _, hend, hend⟩, trivial⟩
  | @token pos gap lexeme after token more _ _ _ _ ih =>
    have hgap : Cursor.Reads ⟨pos, gap ++ (lexeme ++ after)⟩ gap ⟨pos + byteLength gap, _⟩ :=
      ⟨rfl, rfl⟩
    have hlexeme : Cursor.Reads ⟨pos + byteLength gap, lexeme ++ after⟩ lexeme ⟨_, after⟩ :=
      ⟨rfl, rfl⟩
    have hstart := hmark.reads hgap
    have hstop := hstart.reads hlexeme
    exact ⟨⟨Nat.le_add_right _ _, Nat.le_add_right _ _, Nat.le_refl _, hstart.pos, hstop.pos⟩, ih hstop⟩

theorem spaced_upToEnd (h : Stream.Spaced mark low tokens) :
    Stream.Spaced mark low (Layout.upToEnd tokens) := by
  induction tokens generalizing low with
  | nil => trivial
  | cons token rest ih =>
    unfold Layout.upToEnd
    split
    · exact ⟨h.1, trivial⟩
    · exact ⟨h.1, ih h.2⟩

theorem spaced_marks {column depth semis place after}
    (h : Layout.Marks column depth place semis contexts after out) (hlow : low ≤ place.start)
    (hplace : mark place.start) (hrest : Stream.Spaced mark place.start tokens) :
    Stream.Spaced mark low (out ++ tokens) := by
  induction h generalizing low with
  | done => exact hrest.widen hlow
  | opened _ _ ih | closed _ _ _ _ ih | separated _ _ _ ih =>
    exact ⟨⟨hlow, Nat.le_refl _, Nat.le_refl _, hplace, hplace⟩, ih (Nat.le_refl _)⟩

/-- Braces and semicolons that layout adds stand where the token behind them does. -/
theorem spaced_interleaved {index : LineIndex} (h : Layout.Interleaved index contexts tokens out)
    (htokens : Stream.Spaced mark low tokens) : Stream.Spaced mark low out := by
  induction h generalizing low with
  | done => trivial
  | token hmarks _ ih =>
    obtain ⟨htoken, hrest⟩ := htokens
    exact spaced_marks hmarks htoken.low htoken.start
      ⟨htoken.within (Nat.le_refl _) (Nat.le_refl _), ih hrest⟩

end Lamina.Surface

namespace Lamina

theorem boundary_le {source byte} (h : boundary source byte) : byte ≤ source.utf8ByteSize := by
  obtain ⟨before, after, hsource, rfl⟩ := isValid_iff.mp h
  rw [← byteLength_toList, hsource, byteLength_append]
  exact Nat.le_add_right _ _

theorem marked_source (source : String) : Cursor.Marked (boundary source) ⟨0, source.toList⟩ :=
  fun front back h => isValid_iff.mpr ⟨front, back, h, (Nat.zero_add _).symm⟩

open Surface

variable {source : String}

/-- The tokens that are parsed stand one behind the other in the text. -/
theorem resolved_laid {tokens resolved} (hlex : Token.lex source = .ok tokens)
    (hlayout : Layout.resolve source tokens = .ok resolved) :
    (Stream.ofTokens resolved).Laid (boundary source) := by
  have hresolved := Layout.resolveFrom_interleaved (Layout.start tokens) hlayout
  have hplain : PlainTokens (Layout.upToEnd tokens) :=
    fun token htoken => plain_lexFrom hlex token (upToEnd_subset tokens htoken)
  have hspaced := spaced_tiles ((Lexer.lexFrom_ok_iff _ _).mp hlex) (marked_source source)
  exact ⟨(marked_source source).pos, nofun, plain_interleaved hresolved hplain,
    spaced_interleaved hresolved (spaced_upToEnd hspaced)⟩

/-- The tree of a source text is one that a text can have, and its spans nest. -/
theorem parseSource_tree {tree} (h : parseSource source = .ok tree) :
    FormedDecls tree.decls ∧ tree.Between (boundary source) 0 source.utf8ByteSize := by
  unfold parseSource at h
  obtain ⟨tokens, hlex, h⟩ := ok_of_bind h
  obtain ⟨resolved, hlayout, h⟩ := ok_of_bind h
  have hspent := wholeModule_spends (nestingBound resolved) (.ofTokens resolved)
    fun _ : True => resolved_laid hlex hlayout
  unfold parseModule Outcome.result at h
  split at h
  · rename_i value rest hparse
    cases h
    rw [hparse] at hspent
    cases hspent with
    | done _ hvalue =>
      obtain ⟨hformed, hspan, hname, hexports, hdecls⟩ := hvalue trivial
      have hsize := boundary_le hspan.stop
      exact ⟨hformed, hspan.within (Nat.zero_le _) hsize, hname, hexports, hdecls⟩
  · cases h
  · cases h

theorem parseSource_formed {tree} (h : parseSource source = .ok tree) :
    FormedDecls tree.decls := (parseSource_tree h).1

theorem endInput_error {place contexts e} (h : Layout.endInput place contexts = .error e) :
    e.span? = none := by
  induction contexts with
  | nil => cases h
  | cons context rest ih =>
    cases context with
    | explicit =>
      cases h
      rfl
    | implicit column depth isLet =>
      unfold Layout.endInput at h
      split at h
      · rename_i hrest
        cases h
        exact ih hrest
      · cases h

/-- Layout fails at the end of the input only, which is no place in the text. -/
theorem resolveFrom_error {index st tokens e} (h : Layout.resolveFrom index st tokens = .error e) :
    e.span? = none := by
  induction tokens generalizing st with
  | nil => cases h
  | cons token rest ih =>
    unfold Layout.resolveFrom at h
    split at h
    · split at h
      · rename_i hend
        cases h
        exact endInput_error hend
      · cases h
    · simp only at h
      split at h
      · rename_i hrest
        cases h
        exact ih hrest
      · cases h

/-- An error in a source text points at places between its characters. -/
theorem parseSource_error {e} (h : parseSource source = .error e) : e.At (boundary source) := by
  unfold parseSource at h
  cases hlex : Token.lex source with
  | error e' =>
    rw [hlex] at h
    cases h
    exact Lexer.lexFrom_at hlex (marked_source source)
  | ok tokens =>
    cases hlayout : Layout.resolve source tokens with
    | error e' =>
      simp only [hlex, hlayout, bind, Except.bind] at h
      cases h
      rw [SyntaxError.At, resolveFrom_error hlayout]
      rintro span ⟨⟩
    | ok resolved =>
      simp only [hlex, hlayout, bind, Except.bind] at h
      have hspent := wholeModule_spends (nestingBound resolved) (.ofTokens resolved)
        fun _ : True => resolved_laid hlex hlayout
      unfold parseModule Outcome.result at h
      split at h
      · cases h
      · rename_i hparse
        cases h
        rw [hparse] at hspent
        cases hspent with
        | failed he => exact he trivial
      · cases h
        rintro span ⟨⟩

end Lamina
