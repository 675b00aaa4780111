import Lamina.Proofs.Except
import Lamina.Proofs.Layout.Nested
import Lamina.Proofs.Layout.Step
import Lamina.Proofs.Token.Extent

/-!
# Layout nests its blocks

What layout writes for a run of tokens is a run of braces that closes some blocks and opens others
(`Shifts`). Where the braces of the tokens are nested, no explicit block is among them
(`shifts_of_nested`); where all brackets are, the blocks that open stand inside as many brackets as
the run does (`shifts_of_bracketed`), so that the bracket behind the run closes them all.
-/

namespace Lamina.Layout

variable {depth column semis : Nat} {place : Span} {contexts after : List Context}
  {token : Located Token} {st : State} {marks : List (Located Token)}

/-! ## Runs of steps -/

/-- The tokens of an input that does not end yet: the state behind them, and what is written. -/
def steps (index : LineIndex) (st : State) :
    List (Located Token) → State × List (Located Token)
  | [] => (st, [])
  | token :: tokens =>
    let first := step index st token
    let rest := steps index first.1 tokens
    (rest.1, first.2 ++ rest.2)

theorem steps_append (index : LineIndex) (st : State) (first rest : List (Located Token)) :
    steps index st (first ++ rest) =
      ((steps index (steps index st first).1 rest).1,
        (steps index st first).2 ++ (steps index (steps index st first).1 rest).2) := by
  induction first generalizing st with
  | nil => rfl
  | cons token first ih => simp [steps, ih]

theorem resolveFrom_steps (index : LineIndex) (st : State) {init : List (Located Token)}
    {last : Located Token} (hinit : ∀ token ∈ init, token.value ≠ .eof) (hlast : last.value = .eof) :
    resolveFrom index st (init ++ [last]) =
      (endInput last.span (steps index st init).1.contexts).map fun closed =>
        (steps index st init).2 ++ ((if (steps index st init).1.pending.isSome then
          [inserted .lbrace last.span, inserted .rbrace last.span] else []) ++ closed ++ [last]) := by
  induction init generalizing st with
  | nil =>
    rw [List.nil_append, resolveFrom, if_pos hlast, steps]
    cases endInput last.span st.contexts <;> rfl
  | cons token init ih =>
    rw [List.forall_mem_cons] at hinit
    rw [List.cons_append, resolveFrom, if_neg hinit.1, steps]
    simp only [ih (step index st token).1 hinit.2]
    cases endInput last.span (steps index (step index st token).1 init).1.contexts with
    | error e => rfl
    | ok closed => simp [Except.map]

/-! ## The blocks that a run closes and opens -/

/-- An implicit block that opened inside `depth` brackets. -/
def OpenedAt (depth : Nat) (context : Context) : Prop :=
  ∃ column isLet, context = .implicit column depth isLet

/-- From some open blocks to others: implicit ones close, `new` ones open, and the braces that are
written close and open as many. -/
def Shifts (new : Context → Prop) (contexts after : List Context) (out : List (Located Token)) :
    Prop :=
  ∃ closed opened base, contexts = closed ++ base ∧ after = opened ++ base ∧
    (∀ context ∈ closed, context ≠ .explicit) ∧ (∀ context ∈ opened, new context) ∧
    ∀ count rest, Ends true (opened.length + count) rest →
      Ends true (closed.length + count) (out ++ rest)

namespace Shifts

variable {new : Context → Prop} {context : Context} {contexts middle after : List Context}
  {out more : List (Located Token)} {mark : Located Token}

theorem keep (hout : Nested out) : Shifts new contexts contexts out := by
  refine ⟨[], [], contexts, rfl, rfl, nofun, nofun, ?_⟩
  intro count rest hrest
  exact Ends.append hout hrest

theorem opening (hnew : new context) (hvalue : mark.value = .punct .lbrace) (hmark : isMark mark) :
    Shifts new contexts (context :: contexts) [mark] := by
  refine ⟨[], [context], contexts, rfl, rfl, nofun, by simpa using hnew, ?_⟩
  intro count rest hrest
  rw [List.length_singleton, Nat.add_comm] at hrest
  simpa using hrest.opening hvalue hmark

theorem closing (hcontext : context ≠ .explicit) (hvalue : mark.value = .punct .rbrace)
    (hmark : isMark mark) : Shifts new (context :: contexts) contexts [mark] := by
  refine ⟨[context], [], contexts, rfl, rfl, by simpa using hcontext, nofun, ?_⟩
  intro count rest hrest
  rw [List.length_singleton, Nat.add_comm]
  have hword : Nested [] := .nil
  simpa using Ends.closing hword hvalue hmark hrest

theorem trans (h : Shifts new contexts middle out) (h' : Shifts new middle after more) :
    Shifts new contexts after (out ++ more) := by
  obtain ⟨closed, opened, base, rfl, rfl, hclosed, hopened, hends⟩ := h
  obtain ⟨closed', opened', base', hmiddle, rfl, hclosed', hopened', hends'⟩ := h'
  -- either the second run closes blocks of the first one only, or all of them and some before
  rcases List.append_eq_append_iff.mp hmiddle with ⟨left, rfl, rfl⟩ | ⟨left, rfl, rfl⟩
  · refine ⟨closed ++ left, opened', base', by simp, rfl, ?_, hopened', ?_⟩
    · rw [List.forall_mem_append] at hclosed' ⊢
      exact ⟨hclosed, hclosed'.2⟩
    · intro count rest hrest
      have hmore := hends' count rest hrest
      rw [List.length_append, Nat.add_assoc] at hmore ⊢
      rw [List.append_assoc]
      exact hends _ _ hmore
  · rw [List.forall_mem_append] at hopened
    refine ⟨closed, opened' ++ left, base, rfl, by simp, hclosed, ?_, ?_⟩
    · rw [List.forall_mem_append]
      exact ⟨hopened', hopened.2⟩
    · intro count rest hrest
      rw [List.length_append, Nat.add_assoc] at hrest
      have hmore := hends' _ rest hrest
      rw [← Nat.add_assoc, ← List.length_append] at hmore
      rw [List.append_assoc]
      exact hends count _ hmore

theorem mono {new'} (hnew : ∀ context, new context → new' context)
    (h : Shifts new contexts after out) : Shifts new' contexts after out := by
  obtain ⟨closed, opened, base, hcontexts, hafter, hclosed, hopened, hends⟩ := h
  exact ⟨closed, opened, base, hcontexts, hafter, hclosed,
    fun context hcontext => hnew context (hopened context hcontext), hends⟩

/-- If no block that the run could have opened is the innermost one, then it left none open. -/
theorem of_head (h : Shifts new contexts after out)
    (hhead : ∀ context rest, after = context :: rest → ¬new context) :
    ∃ closed, contexts = closed ++ after ∧ (∀ context ∈ closed, context ≠ .explicit) ∧
      ∀ count rest, Ends true count rest → Ends true (closed.length + count) (out ++ rest) := by
  obtain ⟨closed, opened, base, rfl, rfl, hclosed, hopened, hends⟩ := h
  cases opened with
  | nil => exact ⟨closed, rfl, hclosed, by simpa using hends⟩
  | cons context opened => exact absurd (hopened context (by simp)) (hhead context _ rfl)

theorem explicit_mem (h : Shifts new contexts after out) (hcontexts : .explicit ∈ contexts) :
    .explicit ∈ after := by
  obtain ⟨closed, opened, base, rfl, rfl, hclosed, -, -⟩ := h
  rcases List.mem_append.mp hcontexts with hmem | hmem
  · exact absurd rfl (hclosed _ hmem)
  · exact List.mem_append_right _ hmem

theorem ne_explicit (h : Shifts (· ≠ .explicit) contexts after out)
    (hcontexts : ∀ context ∈ contexts, context ≠ .explicit) :
    ∀ context ∈ after, context ≠ .explicit := by
  obtain ⟨closed, opened, base, rfl, rfl, -, hopened, -⟩ := h
  rw [List.forall_mem_append] at hcontexts ⊢
  exact ⟨hopened, hcontexts.2⟩

end Shifts

theorem OpenedAt.ne_explicit {context} (h : OpenedAt depth context) : context ≠ .explicit := by
  obtain ⟨column, isLet, rfl⟩ := h
  exact nofun

theorem isMark_inserted (mark : Punct) (place : Span) : isMark (inserted mark place) := by
  simp [isMark, inserted, Span.point]

theorem Marks.shifts (h : Marks column depth place semis contexts after marks) :
    Shifts (OpenedAt depth) contexts after marks := by
  have hmark (mark : Punct) := isMark_inserted mark place
  induction h with
  | done => exact .keep .nil
  | opened isLet _ ih => exact .trans (.opening ⟨column, isLet, rfl⟩ rfl (hmark .lbrace)) ih
  | closed column inner isLet _ ih =>
    have hcontext : Context.implicit column inner isLet ≠ .explicit := nofun
    exact .trans (.closing hcontext rfl (hmark .rbrace)) ih
  | separated _ _ _ ih =>
    have hsemi : Nested [inserted .semi place] :=
      .loose (by simp [inserted]) (by simp [inserted]) .nil
    exact .trans (.keep hsemi) ih

/-- A mark that layout writes. -/
def IsWritten (token : Located Token) : Prop :=
  ∃ sign place, token = inserted sign place ∧ (sign = .lbrace ∨ sign = .rbrace ∨ sign = .semi)

theorem IsWritten.isMark (h : IsWritten token) : isMark token := by
  obtain ⟨sign, place, rfl, -⟩ := h
  exact isMark_inserted sign place

theorem IsWritten.not_group (h : IsWritten token) :
    opensGroup token.value = false ∧ closesGroup token.value = false := by
  obtain ⟨sign, place, rfl, rfl | rfl | rfl⟩ := h <;> exact ⟨rfl, rfl⟩

theorem Marks.isWritten (h : Marks column depth place semis contexts after marks) :
    ∀ mark ∈ marks, IsWritten mark := by
  induction h with
  | done => exact nofun
  | opened _ _ ih | closed _ _ _ _ ih | separated _ _ _ ih =>
    rw [List.forall_mem_cons]
    exact ⟨⟨_, place, rfl, by simp⟩, ih⟩

variable {index : LineIndex} {tokens inside : List (Located Token)} {opening closing : Located Token}

/-- A token that is no brace opens and closes implicit blocks only. -/
theorem step_shifts (index : LineIndex) (st : State) (hopen : token.value ≠ .punct .lbrace)
    (hclose : token.value ≠ .punct .rbrace) :
    Shifts (OpenedAt st.depth) st.contexts (step index st token).1.contexts
      (step index st token).2 := by
  obtain ⟨contexts, marks, hstep, hmarks⟩ := step_eq index st token
  have hbehind : blocksBehind token.value contexts = contexts := by
    unfold blocksBehind
    split <;> simp_all
  rw [hstep, hbehind]
  exact hmarks.written.shifts.trans (.keep (.loose hopen hclose .nil))

/-- A brace opens an explicit block, behind the marks before it. -/
theorem step_opening (index : LineIndex) (st : State) (htoken : token.value = .punct .lbrace) :
    ∃ contexts marks, (step index st token).1.contexts = .explicit :: contexts ∧
      (step index st token).1.depth = st.depth ∧ (step index st token).2 = marks ++ [token] ∧
      Shifts (OpenedAt st.depth) st.contexts contexts marks := by
  obtain ⟨contexts, marks, hstep, hmarks⟩ := step_eq index st token
  rw [hstep, htoken]
  exact ⟨contexts, marks, rfl, rfl, rfl, hmarks.written.shifts⟩

/-- A brace closes all implicit blocks inside the explicit one, and that one. -/
theorem step_closing (index : LineIndex) (st : State) (htoken : token.value = .punct .rbrace) :
    ∃ contexts marks, (step index st token).1.contexts = contexts.tail ∧
      (step index st token).1.depth = st.depth ∧ (step index st token).2 = marks ++ [token] ∧
      Shifts (OpenedAt st.depth) st.contexts contexts marks ∧
      ∀ context rest, contexts = context :: rest → ¬context ≠ .explicit := by
  obtain ⟨contexts, marks, hstep, hmarks⟩ := step_eq index st token
  rw [hstep, htoken]
  refine ⟨contexts, marks, rfl, rfl, rfl, hmarks.written.shifts, ?_⟩
  rintro (⟨column, depth, isLet⟩ | _) rest hcontexts
  · exact absurd hcontexts (hmarks.explicit htoken column depth isLet rest)
  · simp

/-- An explicit block, from what is known of the run inside it. -/
theorem steps_braces (hopening : opening.value = .punct .lbrace)
    (hclosing : closing.value = .punct .rbrace) (hsame : isMark closing = isMark opening)
    (hinside : ∀ st, Shifts (· ≠ .explicit) st.contexts (steps index st inside).1.contexts
      (steps index st inside).2) (st : State) :
    Shifts (OpenedAt st.depth) st.contexts
      (steps index st (opening :: (inside ++ [closing]))).1.contexts
      (steps index st (opening :: (inside ++ [closing]))).2 := by
  obtain ⟨contexts, marks, hcontexts, -, hout, hbefore⟩ := step_opening index st hopening
  have hin := hinside (step index st opening).1
  rw [steps, steps_append, steps, steps]
  generalize steps index (step index st opening).1 inside = found at hin ⊢
  obtain ⟨contexts', marks', hcontexts', -, hout', hmarks, hhead⟩ :=
    step_closing index found.1 hclosing
  obtain ⟨closed, hclosed, hexplicit, hends⟩ :=
    (hin.trans (hmarks.mono fun _ => OpenedAt.ne_explicit)).of_head hhead
  have hnil : closed = [] := by
    cases closed with
    | nil => rfl
    | cons context closed =>
      rw [hcontexts, List.cons_append] at hclosed
      exact absurd (List.cons.inj hclosed).1.symm (hexplicit context (by simp))
  subst hnil
  rw [hcontexts, List.nil_append] at hclosed
  have hnested : Nested (found.2 ++ marks') := by
    have hends' := hends 0 [] (.nested .nil)
    rwa [List.append_nil, List.length_nil, Ends.zero_iff] at hends'
  have hblock : Nested (opening :: ((found.2 ++ marks') ++ [closing])) :=
    .block hopening hclosing hsame hnested .nil
  simp only [hcontexts', ← hclosed, hout, hout', List.tail_cons, List.append_nil]
  have hall := hbefore.trans (.keep hblock)
  simpa using hall

/-- Where the braces of the tokens are nested, only implicit blocks close and open. -/
theorem shifts_of_nested (index : LineIndex) (h : Nested tokens) (st : State) :
    Shifts (· ≠ .explicit) st.contexts (steps index st tokens).1.contexts
      (steps index st tokens).2 := by
  induction h generalizing st with
  | nil => exact .keep .nil
  | loose hopen hclose _ ih =>
    exact .trans ((step_shifts index st hopen hclose).mono fun _ => OpenedAt.ne_explicit) (ih _)
  | block hopening hclosing hsame _ _ ihInside ihRest =>
    have hblock := (steps_braces hopening hclosing hsame ihInside st).mono
      (fun _ => OpenedAt.ne_explicit)
    rw [block_append, steps_append]
    exact hblock.trans (ihRest _)

/-- The bracket behind a group closes all blocks that opened in the group. -/
theorem step_group (hclosing : closesGroup closing.value) (hpos : 0 < st.depth)
    (hdepth : (steps index st inside).1.depth = st.depth)
    (hinside : Shifts (OpenedAt st.depth) st.contexts (steps index st inside).1.contexts
      (steps index st inside).2) :
    ∃ closed marks, st.contexts =
        closed ++ (step index (steps index st inside).1 closing).1.contexts ∧
      (∀ context ∈ closed, context ≠ .explicit) ∧
      (step index (steps index st inside).1 closing).2 = marks ++ [closing] ∧
      ∀ count rest, Ends true count rest →
        Ends true (closed.length + count) ((steps index st inside).2 ++ marks ++ rest) := by
  obtain ⟨contexts, marks, hstep, hmarks⟩ := step_eq index (steps index st inside).1 closing
  have hbehind : blocksBehind closing.value contexts = contexts := by
    unfold blocksBehind
    split <;> simp_all [closesGroup]
  have hwritten := hmarks.written.shifts
  have hgroup := hmarks.group hclosing
  rw [hdepth] at hwritten hgroup
  have hhead : ∀ context rest, contexts = context :: rest → ¬OpenedAt st.depth context := by
    rintro context rest hcontexts ⟨column, isLet, rfl⟩
    exact hgroup hpos column isLet rest hcontexts
  obtain ⟨closed, hclosed, hexplicit, hends⟩ := (hinside.trans hwritten).of_head hhead
  rw [hstep, hbehind]
  exact ⟨closed, marks, hclosed, hexplicit, rfl, hends⟩

theorem step_depth (index : LineIndex) (st : State) (token : Located Token) :
    (step index st token).1.depth = depthBehind token.value st.depth := by
  obtain ⟨contexts, marks, hstep, -⟩ := step_eq index st token
  rw [hstep]

/-- A group in brackets, from what is known of the run inside it. -/
theorem steps_brackets (hopening : opensGroup opening.value) (hclosing : closesGroup closing.value)
    (hdepth : ∀ st, (steps index st inside).1.depth = st.depth)
    (hinside : ∀ st, Shifts (OpenedAt st.depth) st.contexts (steps index st inside).1.contexts
      (steps index st inside).2) (st : State) :
    Shifts (OpenedAt st.depth) st.contexts
      (steps index st (opening :: (inside ++ [closing]))).1.contexts
      (steps index st (opening :: (inside ++ [closing]))).2 := by
  have hpos : 0 < (step index st opening).1.depth := by
    rw [step_depth, depthBehind, if_pos hopening]
    exact Nat.succ_pos _
  obtain ⟨closed, marks, hclosed, hexplicit, hout, hends⟩ :=
    step_group hclosing hpos (hdepth _) (hinside _)
  have hfirst : Shifts (OpenedAt st.depth) st.contexts (step index st opening).1.contexts
      (step index st opening).2 := by
    refine step_shifts index st ?_ ?_ <;> rintro hvalue <;> simp [hvalue, opensGroup] at hopening
  have hlast : Nested [closing] := by
    refine .loose ?_ ?_ .nil <;> rintro hvalue <;> simp [hvalue, closesGroup] at hclosing
  have hgroup : Shifts (OpenedAt st.depth) (step index st opening).1.contexts
      (step index (steps index (step index st opening).1 inside).1 closing).1.contexts
      ((steps index (step index st opening).1 inside).2 ++ marks) :=
    ⟨closed, [], _, hclosed, rfl, hexplicit, nofun, by simpa using hends⟩
  have hall := hfirst.trans (hgroup.trans (.keep hlast))
  rw [steps, steps_append, steps, steps]
  simpa [hout] using hall

/-- Where all brackets of a run are nested, as many are open behind it as before. -/
theorem depth_of_bracketed (index : LineIndex) (h : Bracketed tokens) (st : State) :
    (steps index st tokens).1.depth = st.depth := by
  induction h generalizing st with
  | nil => rfl
  | @loose token rest htoken _ ih =>
    have hbehind : depthBehind token.value st.depth = st.depth := by
      unfold depthBehind opensGroup closesGroup
      unfold isBracket at htoken
      split at htoken <;> simp_all
    rw [steps]
    exact (ih _).trans ((step_depth index st token).trans hbehind)
  | @group opening closing inside rest left right hopening hclosing hpartner _ _ ihInside ihRest =>
    rw [block_append, steps_append, steps, steps_append, steps, steps]
    simp only [ihRest, step_depth, ihInside, hopening, hclosing]
    unfold partner at hpartner
    split at hpartner <;> cases hpartner <;> rfl

/-- Where all brackets of a run are nested, the blocks it opens and leaves open stand inside as many
brackets as the run does. -/
theorem shifts_of_bracketed (index : LineIndex) (h : Bracketed tokens)
    (htext : ∀ token ∈ tokens, isMark token = false)
    (st : State) :
    Shifts (OpenedAt st.depth) st.contexts (steps index st tokens).1.contexts
      (steps index st tokens).2 := by
  induction h generalizing st with
  | nil => exact .keep .nil
  | @loose token rest htoken _ ih =>
    rw [List.forall_mem_cons] at htext
    have hfirst : Shifts (OpenedAt st.depth) st.contexts (step index st token).1.contexts
        (step index st token).2 := by
      refine step_shifts index st ?_ ?_ <;> rintro hvalue <;> simp [hvalue, isBracket] at htoken
    have hdepth : (step index st token).1.depth = st.depth :=
      depth_of_bracketed index (.loose htoken .nil) st
    have hrest := ih htext.2 (step index st token).1
    rw [hdepth] at hrest
    exact hfirst.trans hrest
  | @group opening closing inside rest left right hopening hclosing hpartner hinside _ ihInside ihRest =>
    simp only [List.forall_mem_cons, List.forall_mem_append] at htext
    obtain ⟨hopeningText, hinsideText, hclosingText, hrestText⟩ := htext
    have hfirst : Shifts (OpenedAt st.depth) st.contexts
        (steps index st (opening :: (inside ++ [closing]))).1.contexts
        (steps index st (opening :: (inside ++ [closing]))).2 := by
      have hbrackets (h : opensGroup (.punct left)) (h' : closesGroup (.punct right)) :=
        steps_brackets (hopening ▸ h) (hclosing ▸ h') (depth_of_bracketed index hinside)
          (ihInside hinsideText) st
      unfold partner at hpartner
      split at hpartner <;> cases hpartner
      · exact hbrackets rfl rfl
      · exact hbrackets rfl rfl
      · exact steps_braces hopening hclosing (hclosingText.trans hopeningText.symm)
          (fun st => (ihInside hinsideText st).mono fun _ => OpenedAt.ne_explicit) st
    have hdepth := depth_of_bracketed index (.group hopening hclosing hpartner hinside .nil) st
    have hrest := ihRest hrestText (steps index st (opening :: (inside ++ [closing]))).1
    rw [hdepth] at hrest
    rw [block_append, steps_append]
    exact hfirst.trans hrest

/-! ## Blocks that are not closed -/

/-- If only braces that close nothing disturb the nesting, then no explicit block is open at the end. -/
theorem ne_explicit_of_ends {count : Nat} (h : Ends false count tokens)
    (hst : ∀ context ∈ st.contexts, context ≠ .explicit) :
    ∀ context ∈ (steps index st tokens).1.contexts, context ≠ .explicit := by
  induction h generalizing st with
  | nested h => exact (shifts_of_nested index h st).ne_explicit hst
  | @closing count word rest closing hword hclosing _ _ ih =>
    have hmiddle := (shifts_of_nested index hword st).ne_explicit hst
    obtain ⟨contexts, marks, hcontexts, -, -, hmarks, hhead⟩ :=
      step_closing index (steps index st word).1 hclosing
    have hnone := (hmarks.mono fun _ => OpenedAt.ne_explicit).ne_explicit hmiddle
    rw [steps_append, steps]
    refine ih ?_
    rw [hcontexts]
    exact fun context hcontext => hnone context (List.mem_of_mem_tail hcontext)

/-- A block that is open and not closed in the tokens is open behind them. -/
theorem explicit_of_not_closedIn (htext : ∀ token ∈ tokens, isMark token = false)
    (h : ¬ClosedIn false tokens) (hst : .explicit ∈ st.contexts) :
    .explicit ∈ (steps index st tokens).1.contexts := by
  induction tokens using block_induction generalizing st with
  | nil => exact hst
  | loose token rest hopen hclose ih =>
    rw [List.forall_mem_cons] at htext
    have htoken : Nested [token] := .loose hopen hclose .nil
    exact ih htext.2 (fun hrest => h (hrest.prepend htoken))
      ((step_shifts index st hopen hclose).explicit_mem hst)
  | closing token rest hclose =>
    exact absurd ⟨[], token, rest, rfl, hclose, htext token (by simp), .nil⟩ h
  | unclosed token rest hopen hclosed ih =>
    rw [List.forall_mem_cons] at htext
    obtain ⟨contexts, marks, hcontexts, -, -, -⟩ := step_opening index st hopen
    exact ih htext.2 hclosed (by rw [hcontexts]; exact List.mem_cons_self)
  | block opening inside closing rest hopening hclosing hmark hinside ih =>
    have hsame : isMark closing = isMark opening := hmark.trans (htext opening (by simp)).symm
    have hblock : Nested (opening :: (inside ++ [closing])) :=
      .block hopening hclosing hsame hinside .nil
    rw [block_append] at h htext ⊢
    rw [steps_append]
    exact ih (fun token htoken => htext token (List.mem_append_right _ htoken))
      (fun hrest => h (hrest.prepend hblock)) ((shifts_of_nested index hblock st).explicit_mem hst)

theorem endInput_error_iff (place : Span) (contexts : List Context) :
    (∃ e, endInput place contexts = .error e) ↔ .explicit ∈ contexts := by
  induction contexts with
  | nil => simp [endInput]
  | cons context contexts ih =>
    cases context with
    | explicit => simp [endInput]
    | implicit column depth isLet =>
      rw [endInput, List.mem_cons, ← ih]
      cases endInput place contexts <;> simp

theorem eq_replicate_of_endInput {closed} (h : endInput place contexts = .ok closed) :
    closed = .replicate contexts.length (inserted .rbrace place) := by
  induction contexts generalizing closed with
  | nil =>
    cases h
    rfl
  | cons context contexts ih =>
    cases context with
    | explicit => cases h
    | implicit column depth isLet =>
      rw [endInput] at h
      split at h
      · cases h
      · rename_i out hout
        cases h
        rw [ih hout]
        rfl

theorem ends_replicate (count : Nat) (place : Span) {rest} (hrest : Nested rest) :
    Ends true count (.replicate count (inserted .rbrace place) ++ rest) := by
  induction count with
  | zero => exact .nested hrest
  | succ count ih => exact .closing .nil rfl (isMark_inserted _ _) ih

/-! ## What is written for which token -/

/-- The tokens of the text are kept, in their order. -/
theorem filter_steps (htext : ∀ token ∈ tokens, isMark token = false) (st : State) :
    (steps index st tokens).2.filter (fun token => !isMark token) = tokens := by
  induction tokens generalizing st with
  | nil => rfl
  | cons token tokens ih =>
    rw [List.forall_mem_cons] at htext
    obtain ⟨contexts, marks, hstep, hmarks⟩ := step_eq index st token
    have hnone : marks.filter (fun token => !isMark token) = [] := by
      simpa using fun mark hmark => (hmarks.written.isWritten mark hmark).isMark
    rw [steps, List.filter_append, ih htext.2, hstep]
    simp [hnone, htext.1]

/-- Where a token of the text stands in what is written, the steps before it end. -/
theorem steps_split {before after tail}
    (h : (steps index st tokens).2 ++ tail = before ++ token :: after) (htoken : ¬IsWritten token)
    (htail : token ∉ tail) :
    ∃ first rest marks, tokens = first ++ token :: rest ∧ (∀ mark ∈ marks, IsWritten mark) ∧
      (step index (steps index st first).1 token).2 = marks ++ [token] ∧
      before = (steps index st first).2 ++ marks ∧
      (steps index (step index (steps index st first).1 token).1 rest).2 ++ tail = after := by
  induction tokens generalizing st before with
  | nil =>
    rw [steps, List.nil_append] at h
    exact absurd (by simp [h]) htail
  | cons current tokens ih =>
    obtain ⟨contexts, marks, hstep, hmarks⟩ := step_eq index st current
    have hwritten : (step index st current).2 = marks ++ [current] := by rw [hstep]
    rw [steps, hwritten, List.append_assoc, List.append_assoc, List.singleton_append] at h
    rcases append_eq_middle h with ⟨more, rfl, -⟩ | ⟨more, rfl, hmore⟩
    · exact absurd (hmarks.written.isWritten token (by simp)) htoken
    · rcases List.cons_eq_append_iff.mp hmore with ⟨rfl, hhead⟩ | ⟨more, rfl, hrest⟩
      · obtain ⟨rfl, rfl⟩ := List.cons.inj hhead
        exact ⟨[], tokens, marks, rfl, hmarks.written.isWritten, hwritten, by simp [steps], rfl⟩
      · obtain ⟨first, rest, marks', rfl, hmarks', hstep', rfl, hafter⟩ := ih hrest
        exact ⟨current :: first, rest, marks', rfl, hmarks', hstep', by simp [steps, hwritten], hafter⟩

/-! ## Texts -/

section Text

variable {st : State} {last : Located Token}

/-- An input fails just if a brace of it opens a block that none closes. -/
theorem resolveFrom_error_iff (htext : ∀ token ∈ tokens, isMark token = false)
    (hends : ∀ token ∈ tokens, token.value ≠ .eof) (hlast : last.value = .eof)
    (hst : ∀ context ∈ st.contexts, context ≠ .explicit) :
    (∃ e, resolveFrom index st (tokens ++ [last]) = .error e) ↔ Unclosed tokens := by
  have herror : (∃ e, resolveFrom index st (tokens ++ [last]) = .error e) ↔
      .explicit ∈ (steps index st tokens).1.contexts := by
    rw [resolveFrom_steps index st hends hlast, ← endInput_error_iff last.span]
    cases endInput last.span (steps index st tokens).1.contexts <;> simp [Except.map]
  rw [herror]
  constructor
  · intro hopen
    refine Classical.byContradiction fun hclosed => ?_
    obtain ⟨count, hcount⟩ := exists_ends htext hclosed
    exact ne_explicit_of_ends hcount hst _ hopen rfl
  · rintro ⟨before, opening, after, rfl, hopening, hafter⟩
    rw [steps_append, steps]
    obtain ⟨contexts, marks, hcontexts, -⟩ := step_opening index (steps index st before).1 hopening
    refine explicit_of_not_closedIn (fun token htoken => htext token (by simp [htoken])) hafter ?_
    rw [hcontexts]
    exact List.mem_cons_self

/-- Where the braces of an input are nested, so are those of what layout writes. -/
theorem nested_of_resolveFrom {out} (hnested : Nested tokens)
    (hends : ∀ token ∈ tokens, token.value ≠ .eof) (hlast : last.value = .eof)
    (hst : st.contexts = []) (h : resolveFrom index st (tokens ++ [last]) = .ok out) :
    Nested out := by
  rw [resolveFrom_steps index st hends hlast] at h
  obtain ⟨closed, hclosed, rfl⟩ := ok_of_map h
  have hshifts := shifts_of_nested index hnested st
  rw [hst] at hshifts
  obtain ⟨closed', opened, base, hnil, hcontexts, -, -, hall⟩ := hshifts
  obtain ⟨rfl, rfl⟩ := List.append_eq_nil_iff.mp hnil.symm
  rw [hcontexts, List.append_nil] at hclosed
  have hrest : Nested [last] := .loose (by rw [hlast]; exact nofun) (by rw [hlast]; exact nofun) .nil
  have hdue : Nested (if (steps index st tokens).1.pending.isSome then
      [inserted .lbrace last.span, inserted .rbrace last.span] else []) := by
    split
    · have hempty : Nested (inserted .lbrace last.span :: ([] ++ [inserted .rbrace last.span])) :=
        .block rfl rfl rfl .nil .nil
      exact hempty
    · exact .nil
  rw [eq_replicate_of_endInput hclosed]
  have htail := Ends.append hdue (ends_replicate opened.length last.span hrest)
  rw [← Ends.zero_iff, List.append_assoc]
  exact hall 0 _ htail

/-- A bracket closes the blocks that layout opened since the bracket that it pairs with. -/
theorem closesOwn_of_resolveFrom {before after} (htext : ∀ token ∈ tokens, isMark token = false)
    (hends : ∀ token ∈ tokens, token.value ≠ .eof) (hlast : last.value = .eof)
    (h : resolveFrom index st (tokens ++ [last]) =
      .ok (before ++ opening :: (inside ++ closing :: after))) (hopening : opensGroup opening.value)
    (hclosing : closesGroup closing.value)
    (hinside : Bracketed (inside.filter fun token => !isMark token)) : ClosesOwn inside := by
  rw [resolveFrom_steps index st hends hlast] at h
  obtain ⟨closed, hclosed, hout⟩ := ok_of_map h
  -- no bracket of a group is a mark, and none stands behind the last token
  have hwritten {token : Located Token} (hgroup : opensGroup token.value ∨ closesGroup token.value) :
      ¬IsWritten token := by
    intro htoken
    simp [htoken.not_group] at hgroup
  have htail {token : Located Token} (hgroup : opensGroup token.value ∨ closesGroup token.value) :
      token ∉ (if (steps index st tokens).1.pending.isSome then
        [inserted .lbrace last.span, inserted .rbrace last.span] else []) ++ closed ++ [last] := by
    rw [eq_replicate_of_endInput hclosed]
    intro hmem
    simp only [List.mem_append, List.mem_singleton] at hmem
    rcases hmem with (hmem | hmem) | rfl
    · refine hwritten hgroup ?_
      split at hmem
      · rcases List.mem_cons.mp hmem with rfl | hmem
        · exact ⟨.lbrace, last.span, rfl, by simp⟩
        · exact ⟨.rbrace, last.span, List.mem_singleton.mp hmem, by simp⟩
      · cases hmem
    · exact hwritten hgroup ⟨.rbrace, last.span, List.eq_of_mem_replicate hmem, by simp⟩
    · simp [hlast, opensGroup, closesGroup] at hgroup
  obtain ⟨first, rest, marks, rfl, -, -, -, hrest⟩ :=
    steps_split hout (hwritten (.inl hopening)) (htail (.inl hopening))
  obtain ⟨middle, rest, marks', rfl, hmarks, hstep, rfl, -⟩ :=
    steps_split hrest (hwritten (.inr hclosing)) (htail (.inr hclosing))
  have hmiddle : ∀ token ∈ middle, isMark token = false :=
    fun token htoken => htext token (by simp [htoken])
  have hnone : marks'.filter (fun token => !isMark token) = [] := by
    simpa using fun mark hmark => (hmarks mark hmark).isMark
  rw [List.filter_append, filter_steps hmiddle, hnone, List.append_nil] at hinside
  generalize hstart : (step index (steps index st first).1 opening).1 = st' at *
  have hpos : 0 < st'.depth := by
    rw [← hstart, step_depth, depthBehind, if_pos hopening]
    exact Nat.succ_pos _
  obtain ⟨closed', marks'', -, -, hstep', hall⟩ := step_group hclosing hpos
    (depth_of_bracketed index hinside st') (shifts_of_bracketed index hinside hmiddle st')
  obtain ⟨rfl, -⟩ := List.append_inj' (hstep.symm.trans hstep') rfl
  have hword := hall 0 [] (.nested .nil)
  rw [List.append_nil] at hword
  intro first brace rest hsplit hbrace hmark
  rw [← hmark]
  exact hword.closedIn hsplit hbrace

end Text

/-- **Layout nests its blocks.** For every text that lexes, layout fails just if some brace opens a
block that none closes. If it succeeds and every brace that closes has its partner, then all braces
are nested, those that layout writes among themselves. And a bracket closes the blocks that layout
opened since its partner, if the brackets of the text in between are nested. -/
theorem resolve_nests {source : String} {tokens : List (Located Token)}
    (hlex : Token.lex source = .ok tokens) :
    ((∃ e, resolve source tokens = .error e) ↔ Unclosed tokens) ∧
    ∀ out, resolve source tokens = .ok out →
      (ClosesOpened tokens → Nested out) ∧
      ∀ before opening inside closing after,
        out = before ++ opening :: (inside ++ closing :: after) →
        opensGroup opening.value → closesGroup closing.value →
        Bracketed (inside.filter fun token => !isMark token) → ClosesOwn inside := by
  obtain ⟨init, rfl, hinit⟩ := Lexer.lexFrom_eq hlex
  generalize hlast : (⟨.eof, .point (0 + byteLength source.toList)⟩ : Located Token) = last
  have heof : last.value = .eof := by rw [← hlast]
  have hends : ∀ token ∈ init, token.value ≠ .eof := fun token htoken => (hinit token htoken).ne_eof
  have htext : ∀ token ∈ init, isMark token = false := by
    intro token htoken
    obtain ⟨before, lexeme, after, -, hlexeme, hspan⟩ := (hinit token htoken).place
    have hpos := byteLength_pos hlexeme.ne_nil
    simp only [isMark, hspan, beq_eq_false_iff_ne]
    omega
  have hstart : (start (init ++ [last])).contexts = [] := by
    unfold start
    split <;> rfl
  have herror : (∃ e, resolve source (init ++ [last]) = .error e) ↔ Unclosed init :=
    resolveFrom_error_iff htext hends heof (by simp [hstart])
  refine ⟨herror.trans (unclosed_concat (by simp [heof]) (by simp [heof])).symm, ?_⟩
  intro out hout
  constructor
  · intro hopened
    have hclosed : ¬Unclosed init := by
      rw [← herror]
      rintro ⟨e, he⟩
      cases hout.symm.trans he
    have hnested := nested_of_closesOpened htext hclosed hopened.of_append
    exact nested_of_resolveFrom hnested hends heof hstart hout
  · rintro before opening inside closing after rfl hopening hclosing hinside
    exact closesOwn_of_resolveFrom htext hends heof hout hopening hclosing hinside

/-- A block in braces inside one that a comma ends, in a group. -/
def groupText : String :=
  "f = (let x = \x7b a \x7d\n" ++
  "         y, b)"

/-- What stands between the brackets, and the marks of layout there. -/
def groupInside : List (Located Token) :=
  [⟨.keyword .letKw, ⟨5, 8⟩⟩, ⟨.punct .lbrace, ⟨9, 9⟩⟩, ⟨.varId "x", ⟨9, 10⟩⟩,
    ⟨.reserved .equals, ⟨11, 12⟩⟩, ⟨.punct .lbrace, ⟨13, 14⟩⟩, ⟨.varId "a", ⟨15, 16⟩⟩,
    ⟨.punct .rbrace, ⟨17, 18⟩⟩, ⟨.punct .semi, ⟨28, 28⟩⟩, ⟨.varId "y", ⟨28, 29⟩⟩,
    ⟨.punct .rbrace, ⟨29, 29⟩⟩, ⟨.punct .comma, ⟨29, 30⟩⟩, ⟨.varId "b", ⟨31, 32⟩⟩]

theorem groupText_nests :
    ∃ tokens before opening closing after, Token.lex groupText = .ok tokens ∧
      resolve groupText tokens = .ok (before ++ opening :: (groupInside ++ closing :: after)) ∧
      opensGroup opening.value ∧ closesGroup closing.value ∧
      ¬Unclosed tokens ∧ ClosesOpened tokens ∧
      Bracketed (groupInside.filter fun token => !isMark token) ∧
      Nested (before ++ opening :: (groupInside ++ closing :: after)) ∧ ClosesOwn groupInside := by
  let opening : Located Token := ⟨.punct .lparen, ⟨4, 5⟩⟩
  let closing : Located Token := ⟨.punct .rparen, ⟨32, 33⟩⟩
  let header : List (Located Token) := [⟨.varId "f", ⟨0, 1⟩⟩, ⟨.reserved .equals, ⟨2, 3⟩⟩]
  let inside := groupInside.filter fun token => !isMark token
  let last : Located Token := ⟨.eof, ⟨33, 33⟩⟩
  have hlex : Token.lex groupText = .ok (header ++ opening :: (inside ++ [closing]) ++ [last]) :=
    ok_of_toOption (by decide +kernel)
  have hout : resolve groupText (header ++ opening :: (inside ++ [closing]) ++ [last]) =
      .ok ((inserted .lbrace ⟨0, 1⟩ :: header) ++ opening :: (groupInside ++ closing ::
        [inserted .rbrace last.span, last])) :=
    ok_of_toOption (by decide +kernel)
  have hinside : Bracketed inside := by
    have hblock : Bracketed (⟨.punct .lbrace, ⟨13, 14⟩⟩ :: ([⟨.varId "a", ⟨15, 16⟩⟩] ++
        ⟨.punct .rbrace, ⟨17, 18⟩⟩ :: [⟨.varId "y", ⟨28, 29⟩⟩, ⟨.punct .comma, ⟨29, 30⟩⟩,
          ⟨.varId "b", ⟨31, 32⟩⟩])) :=
      .group rfl rfl rfl (.loose rfl .nil) (.loose rfl (.loose rfl (.loose rfl .nil)))
    exact .loose rfl (.loose rfl (.loose rfl hblock))
  have hbracketed : Bracketed (header ++ opening :: (inside ++ [closing])) :=
    .loose rfl (.loose rfl (.group rfl rfl rfl hinside .nil))
  have hend : Nested [last] := .loose (by simp [last]) (by simp [last]) .nil
  have hnested := (hbracketed.nested (by decide)).append hend
  obtain ⟨herror, hok⟩ := resolve_nests hlex
  obtain ⟨hbraces, hgroups⟩ := hok _ hout
  refine ⟨_, _, opening, closing, _, hlex, hout, rfl, rfl, ?_, hnested.closesOpened, hinside,
    hbraces hnested.closesOpened, hgroups _ _ _ _ _ rfl rfl rfl hinside⟩
  rw [← herror, hout]
  exact nofun

end Lamina.Layout
