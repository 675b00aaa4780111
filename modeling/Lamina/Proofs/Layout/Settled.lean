import Lamina.Proofs.Except
import Lamina.Proofs.Layout.Step

/-!
# Tokens that leave nothing to layout

Where every block opens with a brace, indentation stands for nothing: layout keeps the tokens as they
are, wherever they stand. `Settled` is the condition. What layout writes is always settled
(`settled_of_resolveFrom`) and settled tokens are kept (`resolveFrom_settled`), so a second run of
layout changes nothing, even if it goes by the columns of another text.
-/

namespace Lamina.Layout

variable {token : Located Token} {level depth line : Nat} {rest : List Token} {index : LineIndex}
  {tokens out : List (Located Token)} {contexts : List Context} {pending : Option Bool} {st : State}
  {place : Span}

/-- Do all blocks of the tokens open with braces? `level` braces are open before them, and `due` says
that a block opens right before them. No block may be open at the end of the input; tokens that
break off have no such end, and a brace that closes nothing does no harm. -/
def Settled : (level : Nat) → (due : Bool) → List Token → Prop
  | _, _, [] => True
  | level, due, token :: rest =>
    if token = .eof then level = 0 ∧ due = false ∧ rest = []
    else if token = .punct .lbrace then Settled (level + 1) false rest
    else if token = .punct .rbrace then due = false ∧ Settled (level - 1) false rest
    else due = false ∧ Settled level (opensBlock token) rest

theorem settled_lbrace (level : Nat) (due : Bool) (rest : List Token) :
    Settled level due (.punct .lbrace :: rest) ↔ Settled (level + 1) false rest := by
  rw [Settled, if_neg nofun, if_pos rfl]

theorem settled_rbrace (level : Nat) (rest : List Token) :
    Settled level false (.punct .rbrace :: rest) ↔ Settled (level - 1) false rest := by
  rw [Settled, if_neg nofun, if_neg (by decide), if_pos rfl]
  exact and_iff_right rfl

theorem settled_cons {token : Token} (hend : token ≠ .eof) (hopen : token ≠ .punct .lbrace)
    (hclose : token ≠ .punct .rbrace) (h : Settled level (opensBlock token) rest) :
    Settled level false (token :: rest) := by
  rw [Settled, if_neg hend, if_neg hopen, if_neg hclose]
  exact ⟨rfl, h⟩

/-! ## Layout keeps settled tokens -/

theorem startLine_explicit (column level : Nat) (place : Span) :
    startLine column place (List.replicate level .explicit) =
      (List.replicate level .explicit, []) := by
  cases level <;> rfl

theorem endGroup_explicit (depth level : Nat) (place : Span) :
    endGroup depth place (List.replicate level .explicit) =
      (List.replicate level .explicit, []) := by
  cases level <;> rfl

theorem endBraces_explicit (level : Nat) (place : Span) :
    endBraces place (List.replicate level .explicit) =
      (List.replicate (level - 1) .explicit, []) := by
  cases level <;> rfl

theorem closeBlocks_explicit (level depth : Nat) (hopen : token.value ≠ .punct .lbrace)
    (hclose : token.value ≠ .punct .rbrace) :
    ∃ depth', closeBlocks (List.replicate level .explicit) depth token =
      (List.replicate level .explicit, depth', []) := by
  unfold closeBlocks
  split
  · cases level with
    | zero => exact ⟨_, rfl⟩
    | succ level => exact ⟨_, rfl⟩
  · exact ⟨_, rfl⟩
  · exact ⟨_, rfl⟩
  · rw [endGroup_explicit]
    exact ⟨_, rfl⟩
  · rw [endGroup_explicit]
    exact ⟨_, rfl⟩
  · rw [endGroup_explicit]
    exact ⟨_, rfl⟩
  · contradiction
  · contradiction
  · exact ⟨_, rfl⟩

theorem step_explicit (index : LineIndex) (token : Located Token) :
    step index ⟨List.replicate level .explicit, depth, line, none⟩ token =
      let closed := closeBlocks (List.replicate level .explicit) depth token
      (⟨closed.1, closed.2.1, (index.position token.span.start).line,
        if opensBlock token.value then some (token.value == .keyword .letKw) else none⟩,
        closed.2.2 ++ [token]) := by
  unfold step openBlock
  simp only [Option.isSome_none, Bool.false_eq_true, false_and, ↓reduceIte, startLine_explicit,
    ite_self, List.nil_append]

theorem step_lbrace (index : LineIndex) (h : token.value = .punct .lbrace) :
    step index ⟨List.replicate level .explicit, depth, line, pending⟩ token =
      (⟨List.replicate (level + 1) .explicit, depth, (index.position token.span.start).line, none⟩,
        [token]) := by
  cases pending with
  | none =>
    rw [step_explicit]
    unfold closeBlocks
    simp [h, opensBlock, List.replicate_succ]
  | some isLet =>
    unfold step
    simp [h, List.replicate_succ]

theorem step_rbrace (index : LineIndex) (h : token.value = .punct .rbrace) :
    step index ⟨List.replicate level .explicit, depth, line, none⟩ token =
      (⟨List.replicate (level - 1) .explicit, depth, (index.position token.span.start).line, none⟩,
        [token]) := by
  rw [step_explicit]
  unfold closeBlocks
  simp [h, opensBlock, endBraces_explicit]

theorem step_loose (index : LineIndex) (hopen : token.value ≠ .punct .lbrace)
    (hclose : token.value ≠ .punct .rbrace) :
    ∃ depth' pending, pending.isSome = opensBlock token.value ∧
      step index ⟨List.replicate level .explicit, depth, line, none⟩ token =
        (⟨List.replicate level .explicit, depth', (index.position token.span.start).line, pending⟩,
          [token]) := by
  obtain ⟨depth', hblocks⟩ := closeBlocks_explicit level depth hopen hclose
  refine ⟨depth', if opensBlock token.value then some (token.value == .keyword .letKw) else none,
    ?_, ?_⟩
  · split <;> simp_all
  · rw [step_explicit, hblocks]
    rfl

theorem resolveFrom_cons {st' rest} (hend : token.value ≠ .eof)
    (hstep : step index st token = (st', [token])) (hrest : resolveFrom index st' rest = .ok rest) :
    resolveFrom index st (token :: rest) = .ok (token :: rest) := by
  rw [resolveFrom, if_neg hend, hstep]
  simp only
  rw [hrest]
  rfl

/-- Settled tokens are kept as they are, whatever the lines and columns are. -/
theorem resolveFrom_settled (index : LineIndex)
    (h : Settled level pending.isSome (tokens.map Located.value)) (depth line : Nat) :
    resolveFrom index ⟨List.replicate level .explicit, depth, line, pending⟩ tokens =
      .ok tokens := by
  induction tokens generalizing level pending depth line with
  | nil => rfl
  | cons token rest ih =>
    rw [List.map_cons, Settled] at h
    split at h
    · -- the end: no block is open or due
      rename_i hend
      obtain ⟨rfl, hpending, hrest⟩ := h
      rw [Option.isSome_eq_false_iff, Option.isNone_iff_eq_none] at hpending
      subst hpending
      rw [List.map_eq_nil_iff] at hrest
      subst hrest
      simp [resolveFrom, hend, endInput]
    · rename_i hend
      split at h
      · rename_i hopen
        have hmore : Settled (level + 1) (none : Option Bool).isSome (rest.map Located.value) := h
        exact resolveFrom_cons hend (step_lbrace index hopen) (ih hmore _ _)
      · rename_i hopen
        have hpending : pending = none := by
          split at h <;> simpa using h.1
        subst hpending
        split at h
        · rename_i hclose
          have hmore : Settled (level - 1) (none : Option Bool).isSome (rest.map Located.value) :=
            h.2
          exact resolveFrom_cons hend (step_rbrace index hclose) (ih hmore _ _)
        · rename_i hclose
          obtain ⟨depth', pending, hpending, hstep⟩ := step_loose index hopen hclose
          have hmore := h.2
          rw [← hpending] at hmore
          exact resolveFrom_cons hend hstep (ih hmore _ _)

/-! ## Layout writes settled tokens -/

/-- Marks lead from settled tokens to settled tokens. -/
theorem Marks.settled {column semis after marks}
    (h : Marks column depth place semis contexts after marks)
    (hrest : Settled after.length false rest) :
    Settled contexts.length false (marks.map Located.value ++ rest) := by
  induction h with
  | done => exact hrest
  | opened _ _ ih => exact (settled_lbrace _ _ _).mpr (ih hrest)
  | closed _ _ _ _ ih => exact (settled_rbrace _ _).mpr (ih hrest)
  | separated _ _ _ ih => exact settled_cons nofun nofun nofun (ih hrest)

theorem settled_token {token : Token} (hend : token ≠ .eof)
    (h : Settled (blocksBehind token contexts).length (pendingBehind token).isSome rest) :
    Settled contexts.length false (token :: rest) := by
  have hpending : (pendingBehind token).isSome = opensBlock token := by
    unfold pendingBehind
    split <;> simp_all
  rw [hpending] at h
  unfold blocksBehind at h
  split at h
  · exact (settled_lbrace _ _ _).mpr h
  · rw [List.length_tail] at h
    exact (settled_rbrace _ _).mpr h
  · exact settled_cons hend ‹_› ‹_› h

/-- Where a block is due, a brace comes first. -/
theorem settled_due {tokens : List Token} (h : Settled level false tokens) {due : Bool}
    (hdue : due → ∃ rest, tokens = .punct .lbrace :: rest) : Settled level due tokens := by
  cases due with
  | false => exact h
  | true =>
    obtain ⟨rest, rfl⟩ := hdue rfl
    exact (settled_lbrace _ _ _).mpr ((settled_lbrace _ _ _).mp h)

/-- One token: what is written for it leads from the blocks before it to those behind it. -/
theorem settled_step (index : LineIndex) (st : State) (hend : token.value ≠ .eof)
    (h : Settled (step index st token).1.contexts.length (step index st token).1.pending.isSome
      rest) :
    Settled st.contexts.length st.pending.isSome
      ((step index st token).2.map Located.value ++ rest) := by
  obtain ⟨contexts, marks, hstep, prepares⟩ := step_eq index st token
  rw [hstep] at h ⊢
  rw [List.map_append, List.append_assoc]
  refine settled_due (prepares.written.settled (settled_token hend h)) ?_
  intro hdue
  rcases prepares.due hdue with ⟨more, rfl⟩ | ⟨rfl, hbrace⟩
  · exact ⟨_, rfl⟩
  · exact ⟨rest, by rw [hbrace]; rfl⟩

theorem settled_endInput {closed} (h : endInput place contexts = .ok closed) :
    Settled contexts.length false (closed.map Located.value ++ [.eof]) := by
  induction contexts generalizing closed with
  | nil =>
    cases h
    exact ⟨rfl, rfl, rfl⟩
  | cons context rest ih =>
    cases context with
    | explicit => cases h
    | implicit column depth isLet =>
      rw [endInput] at h
      split at h
      · cases h
      · cases h
        exact (settled_rbrace _ _).mpr (ih ‹_›)

/-- What layout writes is settled. -/
theorem settled_of_resolveFrom (h : resolveFrom index st tokens = .ok out) :
    Settled st.contexts.length st.pending.isSome (out.map Located.value) := by
  induction tokens generalizing st out with
  | nil =>
    cases h
    trivial
  | cons token rest ih =>
    rw [resolveFrom] at h
    split at h
    · rename_i hend
      split at h
      · cases h
      · rename_i closed hclosed
        cases h
        have hsettled := settled_endInput hclosed
        cases st.pending with
        | none => simpa [hend] using hsettled
        | some isLet =>
          -- a block that is due at the end opens and ends there
          have hopened := (settled_lbrace _ true _).mpr ((settled_rbrace (_ + 1) _).mpr hsettled)
          simpa [hend, inserted] using hopened
    · rename_i hend
      simp only at h
      split at h
      · cases h
      · rename_i more hmore
        cases h
        rw [List.map_append]
        exact settled_step index st hend (ih hmore)

/-! ## A second run -/

/-- Does a text that starts with this token open no block of its own before it? -/
def startsExplicitly (token : Token) : Prop := token = .keyword .moduleKw ∨ token = .punct .lbrace

theorem start_of_startsExplicitly (h : startsExplicitly token.value) (rest : List (Located Token)) :
    start (token :: rest) = ⟨[], 0, 0, none⟩ := by
  obtain ⟨value, span⟩ := token
  rcases h with rfl | rfl <;> rfl

theorem start_cases (tokens : List (Located Token)) :
    start tokens = ⟨[], 0, 0, some false⟩ ∨
      ∃ token rest, tokens = token :: rest ∧ startsExplicitly token.value := by
  unfold start
  split
  · exact .inr ⟨_, _, rfl, .inl rfl⟩
  · exact .inr ⟨_, _, rfl, .inr rfl⟩
  · exact .inl rfl

/-- A token that starts a text explicitly comes first in what layout writes. -/
theorem resolveFrom_first {rest} (hfirst : startsExplicitly token.value)
    (h : resolveFrom index ⟨[], 0, 0, none⟩ (token :: rest) = .ok out) :
    ∃ more, out = token :: more := by
  have hend : token.value ≠ .eof := by
    rcases hfirst with hfirst | hfirst <;> simp [hfirst]
  have hstep : ∃ st, step index ⟨List.replicate 0 .explicit, 0, 0, none⟩ token = (st, [token]) := by
    rcases hfirst with hfirst | hfirst
    · have hopen : token.value ≠ .punct .lbrace := by simp [hfirst]
      have hclose : token.value ≠ .punct .rbrace := by simp [hfirst]
      obtain ⟨depth, pending, _, hstep⟩ := step_loose index hopen hclose
      exact ⟨_, hstep⟩
    · exact ⟨_, step_lbrace index hfirst⟩
  obtain ⟨st, hstep⟩ := hstep
  rw [List.replicate_zero] at hstep
  rw [resolveFrom, if_neg hend, hstep] at h
  simp only at h
  split at h
  · cases h
  · cases h
    exact ⟨_, rfl⟩

theorem Settled.head_of_due {tokens : List Token} (h : Settled level true tokens) :
    tokens = [] ∨ ∃ rest, tokens = .punct .lbrace :: rest := by
  cases tokens with
  | nil => exact .inl rfl
  | cons token rest =>
    rw [Settled] at h
    split at h
    · exact absurd h.2.1 nofun
    · split at h
      · rename_i hopen
        exact .inr ⟨rest, by rw [hopen]⟩
      · split at h <;> exact absurd h.1 nofun

/-- What layout writes is settled from the start, and starts explicitly. -/
theorem settled_of_resolve {source : String} (h : resolve source tokens = .ok out) :
    Settled 0 false (out.map Located.value) ∧
      (out = [] ∨ ∃ token rest, out = token :: rest ∧ startsExplicitly token.value) := by
  unfold resolve at h
  rcases start_cases tokens with hstart | ⟨token, rest, rfl, hfirst⟩
  · rw [hstart] at h
    have hsettled : Settled 0 true (out.map Located.value) := settled_of_resolveFrom h
    rcases hsettled.head_of_due with hnil | ⟨more, hmore⟩
    · rw [List.map_eq_nil_iff] at hnil
      subst hnil
      exact ⟨trivial, .inl rfl⟩
    · obtain ⟨token, rest, rfl, hvalue, rfl⟩ := List.map_eq_cons_iff.mp hmore
      rw [hmore] at hsettled ⊢
      exact ⟨(settled_lbrace _ _ _).mpr ((settled_lbrace _ _ _).mp hsettled),
        .inr ⟨token, rest, rfl, .inr hvalue⟩⟩
  · rw [start_of_startsExplicitly hfirst] at h
    obtain ⟨more, rfl⟩ := resolveFrom_first hfirst h
    exact ⟨settled_of_resolveFrom h, .inr ⟨token, more, rfl, hfirst⟩⟩

/-- **Layout is idempotent, and what it writes does not depend on columns any more.** Whatever the
tokens are, a second run keeps what the first one wrote, by the columns of whichever text it goes. -/
theorem resolve_idempotent {source : String} {tokens out : List (Located Token)}
    (h : resolve source tokens = .ok out) (source' : String) : resolve source' out = .ok out := by
  obtain ⟨hsettled, hfirst⟩ := settled_of_resolve h
  rcases hfirst with rfl | ⟨token, rest, rfl, hfirst⟩
  · rfl
  · have hnone : Settled 0 (none : Option Bool).isSome ((token :: rest).map Located.value) :=
      hsettled
    unfold resolve
    rw [start_of_startsExplicitly hfirst]
    exact resolveFrom_settled _ hnone 0 0

/-- Tokens in no order and without an end: braces that close nothing, a block that ends at a comma,
and another that is still due where the tokens stop. -/
def scattered : List (Located Token) :=
  [⟨.varId "a", ⟨4, 5⟩⟩, ⟨.punct .rbrace, ⟨9, 10⟩⟩, ⟨.punct .lparen, ⟨1, 2⟩⟩,
    ⟨.keyword .ofKw, ⟨2, 4⟩⟩, ⟨.varId "b", ⟨0, 1⟩⟩, ⟨.punct .comma, ⟨3, 4⟩⟩,
    ⟨.keyword .doKw, ⟨6, 8⟩⟩, ⟨.punct .lbrace, ⟨8, 9⟩⟩, ⟨.punct .rbrace, ⟨5, 6⟩⟩,
    ⟨.punct .rbrace, ⟨7, 8⟩⟩, ⟨.keyword .letKw, ⟨0, 3⟩⟩]

theorem scattered_settled :
    ∃ out, resolve "ab\n  c d e f" scattered = .ok out ∧
      out.map (·.value.text) = ["\x7b", "a", "\x7d", "\x7d", "(", "of", "\x7b", "b", ";", "\x7d", ",",
        "do", "\x7b", "\x7d", "\x7d", "let"] ∧
      resolve "\n\n\n\n\n\n\n\n\n" out = .ok out := by
  have hcheck : (resolve "ab\n  c d e f" scattered).toOption.map (List.map (·.value.text)) =
      some ["\x7b", "a", "\x7d", "\x7d", "(", "of", "\x7b", "b", ";", "\x7d", ",", "do", "\x7b", "\x7d",
        "\x7d", "let"] := by
    decide +kernel
  obtain ⟨out, hout, hwords⟩ := Option.map_eq_some_iff.mp hcheck
  exact ⟨out, ok_of_toOption hout, hwords, resolve_idempotent (ok_of_toOption hout) _⟩

end Lamina.Layout
