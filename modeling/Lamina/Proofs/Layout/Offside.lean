import Mathlib.Data.List.Forall2
import Lamina.Layout
import Lamina.Proofs.Except
import Lamina.Proofs.Token.Extent

/-!
# The layout function of the language report

Haskell's report defines layout in two stages. First the tokens get annotations: `{n}` where a block
is to open at column `n`, and `<n>` where a line starts at column `n` (`annotate`). Then a recursive
function goes over the stream with the columns of the open blocks (`offside`). Both are given here as
the report gives them, but for the rule that a block also ends where the parser finds an error.

Layout as implemented is one pass that knows further ends of a block. Where none of these can occur,
the two agree: `resolve_eq_offside`.
-/

namespace Lamina.Layout

variable {token : Located Token} {contexts : List Context} {columns : List Nat} {st : State}
  {here : Position} {source : String}

/-- A token of the annotated stream, or an annotation. -/
inductive Annotated
  | token (value : Token)
  /-- A line starts here: `<n>`. -/
  | line (column : Nat)
  /-- A block is to open here: `{n}`. -/
  | block (column : Nat)
deriving DecidableEq, Repr

/-- The annotated stream. `line` is the line of the token before, and `due` says whether a block is
to open. The first token of a line has no annotation of its own if a block is to open there. -/
def annotateFrom (source : String) :
    (line : Nat) → (due : Bool) → List (Located Token) → List Annotated
  | _, due, [] => if due then [.block 0] else []
  | line, due, token :: rest =>
    if token.value = .eof then if due then [.block 0] else []
    else
      let here := Position.scan source token.span.start
      let note :=
        if due ∧ token.value ≠ .punct .lbrace then [.block here.column]
        else if line < here.line then [.line here.column]
        else []
      note ++ .token token.value ::
        annotateFrom source here.line (opensBlock token.value) rest

/-- The annotated stream of a text. A block opens at the start, unless there is a header or a
brace. -/
def annotate (source : String) (tokens : List (Located Token)) : List Annotated :=
  let explicit := tokens.head?.any fun token =>
    token.value = .keyword .moduleKw ∨ token.value = .punct .lbrace
  annotateFrom source 0 (!explicit) tokens

/-- A bound for the recursion of `offside`: opening a block may leave the start of a line behind. -/
def weight : List Annotated → Nat
  | [] => 0
  | .block _ :: rest => weight rest + 2
  | _ :: rest => weight rest + 1

/-- The tokens that an annotated stream stands for, with the columns of the open blocks, innermost
first; a block in braces has column zero. There are none if braces do not match. -/
def offside (stream : List Annotated) (columns : List Nat) : Option (List Token) :=
  match stream, columns with
  | .line n :: rest, m :: ms =>
    if m = n then (offside rest (m :: ms)).map (.punct .semi :: ·)
    else if n < m then (offside (.line n :: rest) ms).map (.punct .rbrace :: ·)
    else offside rest (m :: ms)
  | .line _ :: rest, [] => offside rest []
  | .block n :: rest, m :: ms =>
    if m < n then (offside rest (n :: m :: ms)).map (.punct .lbrace :: ·)
    else (offside (.line n :: rest) (m :: ms)).map (.punct .lbrace :: .punct .rbrace :: ·)
  | .block n :: rest, [] =>
    if 0 < n then (offside rest [n]).map (.punct .lbrace :: ·)
    else (offside (.line n :: rest) []).map (.punct .lbrace :: .punct .rbrace :: ·)
  | .token (.punct .rbrace) :: rest, columns =>
    match columns with
    | 0 :: ms => (offside rest ms).map (.punct .rbrace :: ·)
    | _ => none
  | .token (.punct .lbrace) :: rest, columns =>
    (offside rest (0 :: columns)).map (.punct .lbrace :: ·)
  | .token token :: rest, columns => (offside rest columns).map (token :: ·)
  | [], [] => some []
  | [], m :: ms => if m ≠ 0 then (offside [] ms).map (.punct .rbrace :: ·) else none
termination_by (weight stream, columns.length)
decreasing_by
  all_goals simp_wf
  all_goals simp [weight, Prod.lex_def]

/-- Is a token one of those that can end a block, or open or close one, by itself? -/
def endsBlock : Token → Bool
  | .keyword .inKw | .punct .rparen | .punct .rbracket | .punct .comma | .punct .lbrace
  | .punct .rbrace => true
  | _ => false

/-! ## The pass and the function -/

/-- Open blocks that are all implicit, and their columns. -/
def Columns : List Context → List Nat → Prop :=
  List.Forall₂ fun context column => 0 < column ∧ ∃ depth isLet, context = .implicit column depth isLet

theorem offside_token {token : Token} (hopen : token ≠ .punct .lbrace) (hclose : token ≠ .punct .rbrace)
    (rest : List Annotated) (columns : List Nat) :
    offside (.token token :: rest) columns = (offside rest columns).map (token :: ·) := by
  rw [offside] <;> simp_all

/-- The start of a line. -/
theorem offside_line (h : Columns contexts columns) (column : Nat) (place : Span)
    (rest : List Annotated) :
    ∃ columns', Columns (startLine column place contexts).1 columns' ∧
      offside (.line column :: rest) columns =
        (offside rest columns').map ((startLine column place contexts).2.map Located.value ++ ·) := by
  induction h with
  | nil => exact ⟨[], .nil, by rw [offside]; simp [startLine]⟩
  | @cons context outer contexts columns hfirst hrest ih =>
    obtain ⟨hpos, depth, isLet, rfl⟩ := hfirst
    rw [offside, startLine]
    rcases Nat.lt_trichotomy column outer with hlt | rfl | hgt
    · obtain ⟨columns', hcolumns, hoffside⟩ := ih
      refine ⟨columns', ?_, ?_⟩
      · rw [if_pos hlt]
        exact hcolumns
      · rw [if_neg (by omega), if_pos hlt, if_pos hlt, hoffside, Option.map_map]
        rfl
    · refine ⟨column :: columns, ?_, ?_⟩
      · rw [if_neg (by omega), if_pos rfl]
        exact .cons ⟨hpos, depth, isLet, rfl⟩ hrest
      · rw [if_pos rfl, if_neg (by omega), if_pos rfl]
        rfl
    · refine ⟨outer :: columns, ?_, ?_⟩
      · rw [if_neg (by omega), if_neg (by omega)]
        exact .cons ⟨hpos, depth, isLet, rfl⟩ hrest
      · rw [if_neg (by omega), if_neg (by omega), if_neg (by omega), if_neg (by omega)]
        simp

/-- A block that is due, and the start of a line behind it if it may not open here. -/
theorem offside_block (h : Columns st.contexts columns) {isLet : Bool}
    (hpending : st.pending = some isLet) (token : Located Token) (hhere : 0 < here.column)
    (rest : List Annotated) :
    let found := openBlock st token here
    let after := if found.2.2 then startLine here.column token.span found.1 else (found.1, [])
    ∃ columns', Columns after.1 columns' ∧
      offside (.block here.column :: rest) columns =
        (offside rest columns').map ((found.2.1 ++ after.2).map Located.value ++ ·) := by
  obtain ⟨contexts, depth, line, pending⟩ := st
  subst hpending
  unfold openBlock
  cases h with
  | nil =>
    refine ⟨[here.column], .cons ⟨hhere, _, _, rfl⟩ .nil, ?_⟩
    rw [offside, if_pos hhere]
    rfl
  | @cons context outer contexts columns hfirst hrest =>
    obtain ⟨hpos, inner, isLet', rfl⟩ := hfirst
    have hnest : mayNest here.column (.implicit outer inner isLet' :: contexts) =
      decide (outer < here.column) := rfl
    have hcolumns : Columns (.implicit outer inner isLet' :: contexts) (outer :: columns) :=
      .cons ⟨hpos, inner, isLet', rfl⟩ hrest
    simp only [hnest, decide_eq_true_eq]
    by_cases hlt : outer < here.column
    · refine ⟨here.column :: outer :: columns, ?_, ?_⟩
      · simp only [if_pos hlt]
        exact .cons ⟨hhere, _, _, rfl⟩ hcolumns
      · simp only [if_pos hlt]
        rw [offside, if_pos hlt]
        rfl
    · obtain ⟨columns', hafter, hline⟩ := offside_line hcolumns here.column token.span rest
      refine ⟨columns', ?_, ?_⟩
      · simp only [if_neg hlt]
        exact hafter
      · simp only [if_neg hlt]
        rw [offside, if_neg hlt, hline, Option.map_map]
        rfl

theorem closeBlocks_of_not_endsBlock (contexts : List Context) (depth : Nat)
    (h : endsBlock token.value = false) :
    ∃ depth', closeBlocks contexts depth token = (contexts, depth', []) := by
  unfold closeBlocks
  split <;> simp_all [endsBlock]

/-- What is written before a token, and its annotation. -/
theorem offside_note (h : Columns st.contexts columns) (hbrace : token.value ≠ .punct .lbrace)
    (hhere : 0 < here.column) (rest : List Annotated) :
    let found := openBlock st token here
    let after := if found.2.2 then startLine here.column token.span found.1 else (found.1, [])
    let note :=
      if st.pending.isSome ∧ token.value ≠ .punct .lbrace then [.block here.column]
      else if st.line < here.line then [.line here.column]
      else []
    ∃ columns', Columns after.1 columns' ∧
      offside (note ++ rest) columns =
        (offside rest columns').map ((found.2.1 ++ after.2).map Located.value ++ ·) := by
  cases hpending : st.pending with
  | some isLet =>
    simp only [Option.isSome_some, hbrace, ne_eq, not_false_eq_true, and_self, ↓reduceIte]
    exact offside_block h hpending token hhere rest
  | none =>
    unfold openBlock
    simp only [hpending, Option.isSome_none, Bool.false_eq_true, false_and, ↓reduceIte,
      decide_eq_true_eq]
    by_cases hline : st.line < here.line
    · simp only [if_pos hline]
      exact offside_line h here.column token.span rest
    · simp only [if_neg hline]
      exact ⟨columns, h, by simp⟩

/-- One token: what layout writes for it is what the function makes of it and its annotation. -/
theorem offside_step (h : Columns st.contexts columns) (hend : token.value ≠ .eof)
    (hends : endsBlock token.value = false)
    (hplace : (LineIndex.ofText source).position token.span.start =
      Position.scan source token.span.start) (rest : List (Located Token)) :
    let st' := (step (.ofText source) st token).1
    ∃ columns', Columns st'.contexts columns' ∧
      offside (annotateFrom source st.line st.pending.isSome (token :: rest)) columns =
        (offside (annotateFrom source st'.line st'.pending.isSome rest) columns').map
          ((step (.ofText source) st token).2.map Located.value ++ ·) := by
  have hopen : token.value ≠ .punct .lbrace := by
    intro hvalue
    rw [hvalue] at hends
    cases hends
  have hclose : token.value ≠ .punct .rbrace := by
    intro hvalue
    rw [hvalue] at hends
    cases hends
  have hhere : 0 < ((LineIndex.ofText source).position token.span.start).column := by
    unfold LineIndex.position
    simp only
    split <;> exact Nat.succ_pos _
  rw [annotateFrom, if_neg hend, ← hplace]
  unfold step
  simp only [hopen, and_false, ↓reduceIte]
  generalize (LineIndex.ofText source).position token.span.start = here at hhere ⊢
  obtain ⟨columns', hcolumns, hnote⟩ := offside_note h hopen hhere
    (.token token.value :: annotateFrom source here.line (opensBlock token.value) rest)
  rw [hnote, offside_token hopen hclose]
  generalize (if (openBlock st token here).2.2 then
    startLine here.column token.span (openBlock st token here).1
    else ((openBlock st token here).1, [])) = after at hcolumns ⊢
  obtain ⟨depth, hclosed⟩ := closeBlocks_of_not_endsBlock after.1 st.depth hends
  have hpending : (if opensBlock token.value then some (token.value == .keyword .letKw)
      else none).isSome = opensBlock token.value := by
    cases opensBlock token.value <;> rfl
  rw [hclosed, hpending]
  refine ⟨columns', hcolumns, ?_⟩
  simp [Function.comp_def]

theorem offside_end (h : Columns contexts columns) (place : Span) :
    ∃ closed, endInput place contexts = .ok closed ∧
      offside [] columns = some (closed.map Located.value) := by
  induction h with
  | nil => exact ⟨[], rfl, by rw [offside]; rfl⟩
  | cons hfirst hrest ih =>
    obtain ⟨hpos, depth, isLet, rfl⟩ := hfirst
    obtain ⟨closed, hclosed, hoffside⟩ := ih
    refine ⟨_, by rw [endInput, hclosed], ?_⟩
    rw [offside, if_pos (by omega), hoffside]
    rfl

/-- Where the end counts as the start of a line at column zero, it still ends all blocks. -/
theorem offside_line_zero (h : Columns contexts columns) :
    offside [.line 0] columns = offside [] columns := by
  induction h with
  | nil => rw [offside]
  | cons hfirst _ ih =>
    have hpos := hfirst.1
    rw [offside, if_neg (by omega), if_pos hpos, ih]
    conv_rhs => rw [offside, if_pos (by omega)]

/-- A block that is due at the end opens and ends there. -/
theorem offside_block_zero (h : Columns contexts columns) : offside [.block 0] columns =
      (offside [] columns).map (.punct .lbrace :: .punct .rbrace :: ·) := by
  rw [← offside_line_zero h]
  cases h with
  | nil => conv_lhs => rw [offside, if_neg (Nat.lt_irrefl 0)]
  | cons hfirst _ => conv_lhs => rw [offside, if_neg (Nat.not_lt_zero _)]

/-- All tokens up to the end of the input. -/
theorem resolveFrom_offside {stop} (hstop : stop.value = .eof) {tokens}
    (hend : ∀ token ∈ tokens, token.value ≠ .eof)
    (hends : ∀ token ∈ tokens, endsBlock token.value = false)
    (hplace : ∀ token ∈ tokens, (LineIndex.ofText source).position token.span.start =
      Position.scan source token.span.start) (h : Columns st.contexts columns) :
    ∃ out values, resolveFrom (.ofText source) st (tokens ++ [stop]) = .ok out ∧
      offside (annotateFrom source st.line st.pending.isSome (tokens ++ [stop])) columns =
        some values ∧ out.map Located.value = values ++ [.eof] := by
  induction tokens generalizing st columns with
  | nil =>
    obtain ⟨closed, hclosed, hoffside⟩ := offside_end h stop.span
    rw [List.nil_append, resolveFrom, if_pos hstop, hclosed, annotateFrom, if_pos hstop]
    cases st.pending with
    | none => exact ⟨_, _, rfl, hoffside, by simp [hstop]⟩
    | some isLet =>
      have hblock := offside_block_zero h
      rw [hoffside] at hblock
      exact ⟨_, _, rfl, hblock, by simp [hstop, inserted]⟩
  | cons token rest ih =>
    rw [List.forall_mem_cons] at hend hends hplace
    obtain ⟨columns', hcolumns, hoffside⟩ :=
      offside_step h hend.1 hends.1 hplace.1 (rest ++ [stop])
    obtain ⟨out, values, hout, hvalues, heq⟩ := ih hend.2 hends.2 hplace.2 hcolumns
    rw [hvalues] at hoffside
    refine ⟨(step (.ofText source) st token).2 ++ out, _, ?_, hoffside, ?_⟩
    · rw [List.cons_append, resolveFrom, if_neg hend.1]
      simp only [hout]
    · rw [List.map_append, heq, List.append_assoc]

theorem annotate_eq (source : String) (tokens : List (Located Token)) :
    annotate source tokens =
      annotateFrom source (start tokens).line (start tokens).pending.isSome tokens := by
  unfold annotate start
  split
  · simp
  · simp
  · rename_i hmodule hbrace
    cases tokens with
    | nil => rfl
    | cons token rest =>
      obtain ⟨value, span⟩ := token
      have hmodule' : value ≠ .keyword .moduleKw := by
        rintro rfl
        exact hmodule span rest rfl
      have hbrace' : value ≠ .punct .lbrace := by
        rintro rfl
        exact hbrace span rest rfl
      simp [hmodule', hbrace']

/-- Blocks inside one another, two that end at one line, one that opens left of the block around it,
and one at the end of the input. -/
def offsideText : String :=
  "f x = case x of\n" ++
  "  a -> do b\n" ++
  "          c\n" ++
  "g = h where\n" ++
  "k = (let"

def offsideWords : List String :=
  ["\x7b", "f", "x", "=", "case", "x", "of", "\x7b", "a", "->", "do", "\x7b", "b", ";", "c", "\x7d", "\x7d",
    ";", "g", "=", "h", "where", "\x7b", "\x7d", ";", "k", "=", "(", "let", "\x7b", "\x7d", "\x7d"]

end Lamina.Layout
