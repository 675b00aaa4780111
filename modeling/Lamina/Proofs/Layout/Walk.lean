import Lamina.Proofs.Layout.Page

/-!
# Layout goes by columns and starts of lines

Of the places of its tokens layout looks at nothing but the column of each and whether it starts a
line; and the places of the braces and semicolons that it adds decide nothing either. So what
it writes for a text can be told from the tokens as they stand on the page: `resolveFrom_walk`.
-/

namespace Lamina.Layout

/-- What is known between two tokens of a page: the open blocks, the number of open brackets, and
whether a block is to open. -/
structure Blocks where
  contexts : List Context
  depth : Nat
  pending : Option Bool

/-- What is known before a token, but for the line of the token before. -/
def State.blocks (st : State) : Blocks := ⟨st.contexts, st.depth, st.pending⟩

/-- A token of a page: the blocks behind it, and what is written for it. Lines are counted from that
of the token before. -/
def advance (st : Blocks) (token : Placed) : Blocks × List Token :=
  if st.pending.isSome ∧ token.value = .punct .lbrace then
    (⟨.explicit :: st.contexts, st.depth, none⟩, [token.value])
  else
    let located : Located Token := ⟨token.value, .point 0⟩
    let (contexts, opened, atLineStart) :=
      openBlock ⟨st.contexts, st.depth, 0, st.pending⟩ located ⟨token.startsLine.toNat, token.column⟩
    let (contexts, separated) :=
      if atLineStart then startLine token.column (.point 0) contexts else (contexts, [])
    let (contexts, depth, closed) := closeBlocks contexts st.depth located
    let pending :=
      if opensBlock token.value then some (token.value == .keyword .letKw) else none
    (⟨contexts, depth, pending⟩, (opened ++ separated ++ closed).map Located.value ++ [token.value])

/-- The tokens of a page, one after the other. -/
def walk : Blocks → List Placed → Blocks × List Token
  | st, [] => (st, [])
  | st, token :: rest =>
    ((walk (advance st token).1 rest).1, (advance st token).2 ++ (walk (advance st token).1 rest).2)

/-! ## Places decide nothing -/

theorem startLine_place (column : Nat) (place place' : Span) (contexts : List Context) :
    (startLine column place contexts).1 = (startLine column place' contexts).1 ∧
      (startLine column place contexts).2.map Located.value =
        (startLine column place' contexts).2.map Located.value := by
  induction contexts with
  | nil => exact ⟨rfl, rfl⟩
  | cons context rest ih =>
    cases context with
    | explicit => exact ⟨rfl, rfl⟩
    | implicit outer depth isLet =>
      unfold startLine
      split
      · exact ⟨ih.1, congrArg (List.cons (Token.punct .rbrace)) ih.2⟩
      · split <;> exact ⟨rfl, rfl⟩

theorem endGroup_place (depth : Nat) (place place' : Span) (contexts : List Context) :
    (endGroup depth place contexts).1 = (endGroup depth place' contexts).1 ∧
      (endGroup depth place contexts).2.map Located.value =
        (endGroup depth place' contexts).2.map Located.value := by
  induction contexts with
  | nil => exact ⟨rfl, rfl⟩
  | cons context rest ih =>
    cases context with
    | explicit => exact ⟨rfl, rfl⟩
    | implicit column inner isLet =>
      unfold endGroup
      split
      · exact ⟨ih.1, congrArg (List.cons (Token.punct .rbrace)) ih.2⟩
      · exact ⟨rfl, rfl⟩

theorem endBraces_place (place place' : Span) (contexts : List Context) :
    (endBraces place contexts).1 = (endBraces place' contexts).1 ∧
      (endBraces place contexts).2.map Located.value =
        (endBraces place' contexts).2.map Located.value := by
  induction contexts with
  | nil => exact ⟨rfl, rfl⟩
  | cons context rest ih =>
    cases context with
    | explicit => exact ⟨rfl, rfl⟩
    | implicit column inner isLet =>
      unfold endBraces
      exact ⟨ih.1, congrArg (List.cons (Token.punct .rbrace)) ih.2⟩

theorem closeBlocks_place (contexts : List Context) (depth : Nat) (value : Token)
    (place place' : Span) :
    (closeBlocks contexts depth ⟨value, place⟩).1 = (closeBlocks contexts depth ⟨value, place'⟩).1 ∧
      (closeBlocks contexts depth ⟨value, place⟩).2.1 =
        (closeBlocks contexts depth ⟨value, place'⟩).2.1 ∧
      (closeBlocks contexts depth ⟨value, place⟩).2.2.map Located.value =
        (closeBlocks contexts depth ⟨value, place'⟩).2.2.map Located.value := by
  have hgroup := endGroup_place depth place place' contexts
  have hbraces := endBraces_place place place' contexts
  simp only [closeBlocks]
  split
  · split <;> exact ⟨rfl, rfl, rfl⟩
  · exact ⟨rfl, rfl, rfl⟩
  · exact ⟨rfl, rfl, rfl⟩
  · exact ⟨hgroup.1, rfl, hgroup.2⟩
  · exact ⟨hgroup.1, rfl, hgroup.2⟩
  · exact ⟨hgroup.1, rfl, hgroup.2⟩
  · exact ⟨rfl, rfl, rfl⟩
  · exact ⟨hbraces.1, rfl, hbraces.2⟩
  · exact ⟨rfl, rfl, rfl⟩

theorem openBlock_place (contexts : List Context) (depth line : Nat) (pending : Option Bool)
    (token : Located Token) (here : Position) :
    let found := openBlock ⟨contexts, depth, line, pending⟩ token here
    let found' := openBlock ⟨contexts, depth, 0, pending⟩ ⟨token.value, .point 0⟩
      ⟨(decide (line < here.line)).toNat, here.column⟩
    found.1 = found'.1 ∧ found.2.1.map Located.value = found'.2.1.map Located.value ∧
      found.2.2 = found'.2.2 := by
  unfold openBlock
  cases pending with
  | none =>
    refine ⟨rfl, rfl, ?_⟩
    by_cases h : line < here.line <;> simp [h]
  | some isLet =>
    simp only
    split <;> exact ⟨rfl, rfl, rfl⟩

theorem lineStart_place (atLineStart : Bool) (column : Nat) (place place' : Span)
    (contexts : List Context) :
    let found := if atLineStart then startLine column place contexts else (contexts, [])
    let found' := if atLineStart then startLine column place' contexts else (contexts, [])
    found.1 = found'.1 ∧ found.2.map Located.value = found'.2.map Located.value := by
  cases atLineStart with
  | false => exact ⟨rfl, rfl⟩
  | true => exact startLine_place column place place' contexts

theorem step_advance (index : LineIndex) (st : State) (token : Located Token) :
    let here := index.position token.span.start
    let found := advance st.blocks ⟨token.value, here.column, st.line < here.line⟩
    (step index st token).1.blocks = found.1 ∧ (step index st token).1.line = here.line ∧
      (step index st token).2.map Located.value = found.2 := by
  obtain ⟨contexts, depth, line, pending⟩ := st
  obtain ⟨value, span⟩ := token
  have hblocks : State.blocks ⟨contexts, depth, line, pending⟩ = ⟨contexts, depth, pending⟩ := rfl
  rw [hblocks]
  simp only [step, advance]
  split
  · exact ⟨rfl, rfl, rfl⟩
  · generalize index.position span.start = here
    obtain ⟨hcontexts, hopened, hstart⟩ :=
      openBlock_place contexts depth line pending ⟨value, span⟩ here
    simp only at hcontexts hopened hstart
    rw [hcontexts, hstart]
    generalize openBlock ⟨contexts, depth, 0, pending⟩ ⟨value, .point 0⟩
      ⟨(decide (line < here.line)).toNat, here.column⟩ = found at hopened ⊢
    obtain ⟨hafter, hseparated⟩ := lineStart_place found.2.2 here.column span (.point 0) found.1
    rw [hafter]
    generalize (if found.2.2 then startLine here.column (.point 0) found.1 else (found.1, [])) =
      after at hseparated ⊢
    obtain ⟨hclosing, hdepth, hclosed⟩ := closeBlocks_place after.1 depth value span (.point 0)
    refine ⟨by rw [hclosing, hdepth]; rfl, rfl, ?_⟩
    simp only [List.map_append, hopened, hseparated, hclosed]
    rfl

theorem walk_append (st : Blocks) (first second : List Placed) :
    walk st (first ++ second) =
      ((walk (walk st first).1 second).1, (walk st first).2 ++ (walk (walk st first).1 second).2) := by
  induction first generalizing st with
  | nil => rfl
  | cons token rest ih => simp only [List.cons_append, walk, ih, List.append_assoc]

theorem resolveFrom_cons_values (index : LineIndex) (st : State) {token} (h : token.value ≠ .eof)
    (rest : List (Located Token)) :
    (resolveFrom index st (token :: rest)).map (List.map Located.value) =
      ((resolveFrom index (step index st token).1 rest).map (List.map Located.value)).map
        ((step index st token).2.map Located.value ++ ·) := by
  rw [resolveFrom, if_neg h]
  simp only
  cases resolveFrom index (step index st token).1 rest with
  | error e => rfl
  | ok more => simp [Except.map]

/-- What layout writes for tokens up to the end of the input. -/
theorem resolveFrom_walk (index : LineIndex) (st : State) {tokens}
    (h : ∀ token ∈ tokens, token.value ≠ .eof) {stop} (hstop : stop.value = .eof) :
    let found := walk st.blocks (onPageFrom index st.line tokens)
    (resolveFrom index st (tokens ++ [stop])).map (List.map Located.value) =
      (endInput stop.span found.1.contexts).map fun closed =>
        found.2 ++ ((if found.1.pending.isSome then [.punct .lbrace, .punct .rbrace] else []) ++
          closed.map Located.value ++ [.eof]) := by
  induction tokens generalizing st with
  | nil =>
    obtain ⟨contexts, depth, line, pending⟩ := st
    simp only [List.nil_append, resolveFrom, hstop, ↓reduceIte, onPageFrom, walk, State.blocks]
    cases endInput stop.span contexts with
    | error e => rfl
    | ok closed => cases pending <;> simp [Except.map, hstop, inserted]
  | cons token rest ih =>
    obtain ⟨hfirst, hrest⟩ := List.forall_mem_cons.mp h
    obtain ⟨hblocks, hline, hout⟩ := step_advance index st token
    have hmore := ih (step index st token).1 hrest
    rw [hblocks, hline] at hmore
    simp only [List.cons_append, onPageFrom, walk]
    rw [resolveFrom_cons_values index st hfirst, hmore, hout]
    cases endInput stop.span _ with
    | error e => rfl
    | ok closed => simp [Except.map]

end Lamina.Layout
