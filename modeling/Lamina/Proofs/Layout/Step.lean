import Lamina.Proofs.Layout.Page

/-!
# What a token does to the open blocks

Before a token layout writes marks of its own: braces of implicit blocks, and semicolons. `Marks`
says which marks can follow each other, and what they do to the open blocks; `step_eq` says that a
step of layout is to write such marks and then the token, and what is known of them.
-/

namespace Lamina.Layout

/-- Marks written before a token that stands in a column and inside `depth` brackets, with the open
blocks before and behind them. Only implicit blocks are opened and closed, those opened in the column
of the token. There are at most `semis` semicolons, and each separates the items of a block in that
column. -/
inductive Marks (column depth : Nat) (place : Span) :
    Nat → List Context → List Context → List (Located Token) → Prop
  | done {semis} (contexts : List Context) : Marks column depth place semis contexts contexts []
  | opened (isLet : Bool) {semis contexts after out}
      (h : Marks column depth place semis (.implicit column depth isLet :: contexts) after out) :
      Marks column depth place semis contexts after (inserted .lbrace place :: out)
  | closed (other inner : Nat) (isLet : Bool) {semis contexts after out}
      (h : Marks column depth place semis contexts after out) :
      Marks column depth place semis (.implicit other inner isLet :: contexts) after
        (inserted .rbrace place :: out)
  | separated (inner : Nat) (isLet : Bool) {semis contexts after out}
      (h : Marks column depth place semis (.implicit column inner isLet :: contexts) after out) :
      Marks column depth place (semis + 1) (.implicit column inner isLet :: contexts) after
        (inserted .semi place :: out)

/-- The open blocks behind a token: a brace opens or closes an explicit one. -/
def blocksBehind (token : Token) (contexts : List Context) : List Context :=
  match token with
  | .punct .lbrace => .explicit :: contexts
  | .punct .rbrace => contexts.tail
  | _ => contexts

/-- The number of open brackets behind a token. -/
def depthBehind (token : Token) (depth : Nat) : Nat :=
  if opensGroup token then depth + 1 else if closesGroup token then depth - 1 else depth

/-- Whether a block is to open behind a token, and whether it belongs to a `let`. -/
def pendingBehind (token : Token) : Option Bool :=
  if opensBlock token then some (token == .keyword .letKw) else none

/-- Marks that layout may write before a token: all that are due, and all that the token asks for. -/
structure Prepares (column : Nat) (st : State) (token : Located Token) (contexts : List Context)
    (marks : List (Located Token)) : Prop where
  written : Marks column st.depth token.span 1 st.contexts contexts marks
  /-- A block that is due opens first, unless the token opens it. -/
  due : st.pending.isSome →
    (∃ more, marks = inserted .lbrace token.span :: more) ∨
      marks = [] ∧ token.value = .punct .lbrace
  /-- A brace closes all implicit blocks inside the explicit one. -/
  explicit : token.value = .punct .rbrace →
    ∀ column depth isLet rest, contexts ≠ .implicit column depth isLet :: rest
  /-- A bracket closes all implicit blocks of its group. -/
  group : closesGroup token.value → 0 < st.depth →
    ∀ column isLet rest, contexts ≠ .implicit column st.depth isLet :: rest

namespace Marks

variable {column depth semis : Nat} {place : Span} {contexts after : List Context}

theorem add {out} (h : Marks column depth place semis contexts after out) (more : Nat) :
    Marks column depth place (semis + more) contexts after out := by
  induction h with
  | done => exact .done _
  | opened isLet _ ih => exact .opened isLet ih
  | closed other inner isLet _ ih => exact .closed other inner isLet ih
  | @separated inner isLet semis _ _ _ _ ih =>
    rw [Nat.add_right_comm]
    exact .separated inner isLet ih

theorem append {semis' middle first second}
    (h : Marks column depth place semis contexts middle first)
    (h' : Marks column depth place semis' middle after second) :
    Marks column depth place (semis' + semis) contexts after (first ++ second) := by
  induction h with
  | done => exact h'.add _
  | opened isLet _ ih => exact .opened isLet (ih h')
  | closed other inner isLet _ ih => exact .closed other inner isLet (ih h')
  | separated inner isLet _ ih => exact .separated inner isLet (ih h')

theorem startLine (contexts : List Context) :
    Marks column depth place 1 contexts (startLine column place contexts).1
      (startLine column place contexts).2 := by
  induction contexts with
  | nil => exact .done _
  | cons context rest ih =>
    cases context with
    | explicit => exact .done _
    | implicit outer inner isLet =>
      unfold Layout.startLine
      split
      · exact .closed outer inner isLet ih
      · split
        · rename_i hcolumn
          subst hcolumn
          exact .separated inner isLet (.done _)
        · exact .done _

theorem endGroup (contexts : List Context) :
    Marks column depth place 0 contexts (endGroup depth place contexts).1
      (endGroup depth place contexts).2 := by
  induction contexts with
  | nil => exact .done _
  | cons context rest ih =>
    cases context with
    | explicit => exact .done _
    | implicit other inner isLet =>
      unfold Layout.endGroup
      split
      · exact .closed other inner isLet ih
      · exact .done _

/-- A brace closes: the implicit blocks inside the explicit one end before that one does. -/
theorem endBraces (contexts : List Context) :
    ∃ after, Marks column depth place 0 contexts after (endBraces place contexts).2 ∧
      after.tail = (Layout.endBraces place contexts).1 ∧
      ∀ column inner isLet rest, after ≠ .implicit column inner isLet :: rest := by
  induction contexts with
  | nil => exact ⟨[], .done _, rfl, nofun⟩
  | cons context rest ih =>
    cases context with
    | explicit => exact ⟨_, .done _, rfl, nofun⟩
    | implicit other inner isLet =>
      obtain ⟨after, hmarks, htail, hexplicit⟩ := ih
      exact ⟨after, .closed other inner isLet hmarks, htail, hexplicit⟩

end Marks

/-- A bracket that closes a group leaves no block of the group open. -/
theorem endGroup_ne {depth : Nat} (place : Span) (h : 0 < depth) (contexts : List Context)
    (column : Nat) (isLet : Bool) (rest : List Context) :
    (endGroup depth place contexts).1 ≠ .implicit column depth isLet :: rest := by
  induction contexts with
  | nil => exact nofun
  | cons context rest' ih =>
    cases context with
    | explicit => exact nofun
    | implicit column' inner isLet' =>
      unfold endGroup
      split
      · exact ih
      · rename_i hinner
        intro heq
        cases heq
        exact hinner ⟨rfl, h⟩

/-- What a token does to the blocks by itself. -/
theorem closeBlocks_eq (column : Nat) (contexts : List Context) (depth : Nat)
    (token : Located Token) : ∃ after marks, closeBlocks contexts depth token =
        (blocksBehind token.value after, depthBehind token.value depth, marks) ∧
      Marks column depth token.span 0 contexts after marks ∧
      (token.value = .punct .rbrace →
        ∀ column inner isLet rest, after ≠ .implicit column inner isLet :: rest) ∧
      (closesGroup token.value → 0 < depth →
        ∀ column isLet rest, after ≠ .implicit column depth isLet :: rest) := by
  unfold closeBlocks
  split
  · rename_i hvalue
    rw [hvalue]
    split
    · exact ⟨_, _, rfl, .closed _ _ _ (.done _), nofun, nofun⟩
    · exact ⟨_, _, rfl, .done _, nofun, nofun⟩
  · rename_i hvalue
    rw [hvalue]
    exact ⟨_, _, rfl, .done _, nofun, nofun⟩
  · rename_i hvalue
    rw [hvalue]
    exact ⟨_, _, rfl, .done _, nofun, nofun⟩
  · rename_i hvalue
    rw [hvalue]
    exact ⟨_, _, rfl, .endGroup contexts, nofun,
      fun _ hdepth => endGroup_ne token.span hdepth contexts⟩
  · rename_i hvalue
    rw [hvalue]
    exact ⟨_, _, rfl, .endGroup contexts, nofun,
      fun _ hdepth => endGroup_ne token.span hdepth contexts⟩
  · rename_i hvalue
    rw [hvalue]
    exact ⟨_, _, rfl, .endGroup contexts, nofun, nofun⟩
  · rename_i hvalue
    rw [hvalue]
    exact ⟨_, _, rfl, .done _, nofun, nofun⟩
  · rename_i hvalue
    obtain ⟨after, hmarks, htail, hexplicit⟩ := Marks.endBraces contexts
    rw [hvalue]
    refine ⟨after, _, ?_, hmarks, fun _ => hexplicit, nofun⟩
    show ((endBraces token.span contexts).1, _, _) = (after.tail, _, _)
    rw [htail]
    rfl
  · rename_i hvalue
    generalize token.value = value at *
    refine ⟨contexts, [], ?_, .done _, ?_, ?_⟩
    · unfold blocksBehind depthBehind opensGroup closesGroup
      split <;> simp_all
    · simp_all
    · unfold closesGroup
      split <;> simp_all

/-- The block that is due before a token, and what the start of a line asks for. -/
theorem openBlock_marks (st : State) (token : Located Token) (here : Position) :
    let found := openBlock st token here
    let after := if found.2.2 then startLine here.column token.span found.1 else (found.1, [])
    Marks here.column st.depth token.span 1 st.contexts after.1 (found.2.1 ++ after.2) ∧
      (st.pending.isSome → ∃ more, found.2.1 = inserted .lbrace token.span :: more) := by
  unfold openBlock
  split
  · refine ⟨?_, by simp_all⟩
    simp only
    split
    · exact .startLine st.contexts
    · exact .done _
  · split
    · exact ⟨.opened _ (.done _), fun _ => ⟨_, rfl⟩⟩
    · exact ⟨.opened false (.closed _ _ _ (.startLine st.contexts)), fun _ => ⟨_, rfl⟩⟩

/-- A step of layout: marks, then the token. -/
theorem step_eq (index : LineIndex) (st : State) (token : Located Token) :
    ∃ contexts marks, step index st token =
        (⟨blocksBehind token.value contexts, depthBehind token.value st.depth,
          (index.position token.span.start).line, pendingBehind token.value⟩, marks ++ [token]) ∧
      Prepares (index.position token.span.start).column st token contexts marks := by
  unfold step
  split
  · rename_i hbrace
    refine ⟨st.contexts, [], ?_, .done _, fun _ => .inr ⟨rfl, hbrace.2⟩, ?_, ?_⟩
    · rw [hbrace.2]
      rfl
    · rw [hbrace.2]
      exact nofun
    · rw [hbrace.2]
      exact nofun
  · rename_i hbrace
    obtain ⟨hopened, hdue⟩ := openBlock_marks st token (index.position token.span.start)
    simp only at hopened ⊢
    generalize (if (openBlock st token (index.position token.span.start)).2.2 then
      startLine (index.position token.span.start).column token.span
        (openBlock st token (index.position token.span.start)).1
      else ((openBlock st token (index.position token.span.start)).1, [])) = found at hopened ⊢
    obtain ⟨after, marks, hclosed, hmarks, hexplicit, hgroup⟩ :=
      closeBlocks_eq (index.position token.span.start).column found.1 st.depth token
    rw [hclosed]
    refine ⟨after, _, rfl, hopened.append hmarks, ?_, hexplicit, hgroup⟩
    intro hpending
    obtain ⟨more, hmore⟩ := hdue hpending
    rw [hmore]
    exact .inl ⟨_, rfl⟩

end Lamina.Layout
