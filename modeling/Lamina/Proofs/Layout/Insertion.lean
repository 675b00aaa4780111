import Lamina.Proofs.Except
import Lamina.Proofs.Layout.Step

/-!
# Layout only inserts

What layout writes is its input up to the end, with marks of its own before the tokens. `Interleaved`
follows the blocks that the braces in the output open and close, those of the input and those of
layout; it says nothing about the state that layout keeps.
-/

namespace Lamina.Layout

variable {index : LineIndex} {contexts : List Context} {tokens out : List (Located Token)}

/-- The tokens up to the first end of the input. -/
def upToEnd : List (Located Token) → List (Located Token)
  | [] => []
  | token :: rest => if token.value = .eof then [token] else token :: upToEnd rest

/-- Tokens with marks before each of them, from the given open blocks on. -/
inductive Interleaved (index : LineIndex) :
    List Context → List (Located Token) → List (Located Token) → Prop
  | done (contexts : List Context) : Interleaved index contexts [] []
  | token {depth contexts after token marks tokens out}
      (hmarks : Marks (index.position token.span.start).column depth token.span 1 contexts after
        marks) (h : Interleaved index (blocksBehind token.value after) tokens out) :
      Interleaved index contexts (token :: tokens) (marks ++ token :: out)

theorem Interleaved.sublist (h : Interleaved index contexts tokens out) : tokens.Sublist out := by
  induction h with
  | done => exact .slnil
  | token _ _ ih => exact (ih.cons_cons _).trans (List.sublist_append_right _ _)

/-- At the end of the input all blocks are closed. -/
theorem endInput_marks {column depth place} (h : endInput place contexts = .ok out) :
    Marks column depth place 1 contexts [] out := by
  induction contexts generalizing out with
  | nil =>
    cases h
    exact .done _
  | cons context rest ih =>
    cases context with
    | explicit => cases h
    | implicit other inner isLet =>
      unfold endInput at h
      split at h
      · cases h
      · rename_i closed hclosed
        cases h
        exact .closed other inner isLet (ih hclosed)

/-- What is written from a state on. -/
theorem resolveFrom_interleaved (st : State) (h : resolveFrom index st tokens = .ok out) :
    Interleaved index st.contexts (upToEnd tokens) out := by
  induction tokens generalizing st out with
  | nil =>
    cases h
    exact .done _
  | cons token rest ih =>
    unfold resolveFrom at h
    unfold upToEnd
    split at h
    · rename_i hend
      rw [if_pos hend]
      split at h
      · cases h
      · rename_i closed hclosed
        cases h
        have hmarks : Marks (index.position token.span.start).column st.depth token.span 1
            st.contexts [] closed := endInput_marks hclosed
        split
        · exact .token (.opened false (.closed _ _ _ hmarks)) (.done _)
        · exact .token hmarks (.done _)
    · rename_i hend
      rw [if_neg hend]
      obtain ⟨contexts, marks, hstep, prepares⟩ := step_eq index st token
      simp only [hstep] at h
      split at h
      · cases h
      · rename_i more hmore
        cases h
        rw [List.append_assoc]
        exact .token prepares.written (ih _ hmore)

/-- **Layout only inserts.** Every token up to the end of the input is written, unchanged and in its
place. All that is written besides are braces and semicolons with empty spans at the start of the
token behind them. Before a token there is at most one semicolon, and only where the innermost block
is an implicit one in the column of the token. -/
theorem layout_only_inserts {source : String} {tokens out : List (Located Token)}
    (h : resolve source tokens = .ok out) :
    (upToEnd tokens).Sublist out ∧ Interleaved (.ofText source) [] (upToEnd tokens) out := by
  have hstart : (start tokens).contexts = [] := by
    unfold start
    split <;> rfl
  have hout := resolveFrom_interleaved _ h
  rw [hstart] at hout
  exact ⟨hout.sublist, hout⟩

/-- Two items of one block, and a token behind the end. -/
def itemTokens : List (Located Token) :=
  [⟨.varId "a", ⟨0, 1⟩⟩, ⟨.varId "b", ⟨2, 3⟩⟩, ⟨.eof, ⟨3, 3⟩⟩, ⟨.varId "c", ⟨3, 4⟩⟩]

theorem itemTokens_interleaved :
    ∃ out, resolve "a\nb" itemTokens = .ok out ∧
      out = [⟨.punct .lbrace, ⟨0, 0⟩⟩, ⟨.varId "a", ⟨0, 1⟩⟩, ⟨.punct .semi, ⟨2, 2⟩⟩,
        ⟨.varId "b", ⟨2, 3⟩⟩, ⟨.punct .rbrace, ⟨3, 3⟩⟩, ⟨.eof, ⟨3, 3⟩⟩] ∧
      Interleaved (.ofText "a\nb") [] (itemTokens.take 3) out := by
  have hcheck : (resolve "a\nb" itemTokens).toOption =
      some [⟨.punct .lbrace, ⟨0, 0⟩⟩, ⟨.varId "a", ⟨0, 1⟩⟩, ⟨.punct .semi, ⟨2, 2⟩⟩,
        ⟨.varId "b", ⟨2, 3⟩⟩, ⟨.punct .rbrace, ⟨3, 3⟩⟩, ⟨.eof, ⟨3, 3⟩⟩] := by decide +kernel
  have hresolve := ok_of_toOption hcheck
  exact ⟨_, hresolve, rfl, (layout_only_inserts hresolve).2⟩

end Lamina.Layout
