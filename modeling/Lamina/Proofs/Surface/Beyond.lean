import Lamina.Proofs.Surface.Progress

/-!
# Places and what lies beyond

The parser goes by tokens and not by places: of the same tokens in other places it makes the same
tree in other places, or reports the same error. A parser that stops before the closing parenthesis
its stream ends with stops there whatever follows the parenthesis. And a parser that settles on an
answer gives the same answer within any larger bound on nesting. All three are said at once
(`Follows`): a parser given other places, more tokens and more room answers as before.
-/

namespace Lamina.Surface

open Lamina.Surface.Parser

/-! ## Views -/

/-- A name in another place. -/
def Ident.seen (span : Span → Span) (id : Ident) : Ident := ⟨id.name, span id.span⟩

/-- A way to see places, and trees and errors with other places in them. -/
structure View where
  span : Span → Span
  expr : Expr → Expr
  decl : Decl → Decl
  error : SyntaxError → SyntaxError
  start : span (.point 0) = .point 0
  merge : ∀ a b, span (a.merge b) = (span a).merge (span b) := by intros; rfl
  exprSpan : ∀ e, (expr e).span = span e.span
  var : ∀ id, expr (.var id) = .var (id.seen span) := by intros; rfl
  con : ∀ id, expr (.con id) = .con (id.seen span) := by intros; rfl
  lit : ∀ value s, expr (.lit value s) = .lit value (span s) := by intros; rfl
  binOp : ∀ op lhs rhs s, expr (.binOp op lhs rhs s) =
    .binOp (op.seen span) (expr lhs) (expr rhs) (span s) := by intros; rfl
  neg : ∀ arg s, expr (.neg arg s) = .neg (expr arg) (span s) := by intros; rfl
  app : ∀ func arg s,
    expr (.app func arg s) = .app (expr func) (expr arg) (span s) := by intros; rfl
  cond : ∀ test onTrue onFalse s, expr (.cond test onTrue onFalse s) =
    .cond (expr test) (expr onTrue) (expr onFalse) (span s) := by intros; rfl
  letIn : ∀ decls body s, expr (.letIn decls body s) = .letIn (decls.map decl) (expr body) (span s)
  lambda : ∀ params body s,
    expr (.lambda params body s) = .lambda (params.map (·.seen span)) (expr body) (span s)
  caseOf : ∀ scrutinee s,
    expr (.caseOf scrutinee s) = .caseOf (expr scrutinee) (span s) := by intros; rfl
  doBlock : ∀ s, expr (.doBlock s) = .doBlock (span s) := by intros; rfl
  tuple : ∀ elems s, expr (.tuple elems s) = .tuple (elems.map expr) (span s)
  list : ∀ elems s, expr (.list elems s) = .list (elems.map expr) (span s)
  function : ∀ name params body s, decl (.function name params body s) =
    .function (name.seen span) (params.map (·.seen span)) (expr body) (span s)
  value : ∀ name body s,
    decl (.value name body s) = .value (name.seen span) (expr body) (span s) := by intros; rfl
  signature : ∀ names s, decl (.signature names s) = .signature (names.map (·.seen span)) (span s)
  unsupported : ∀ what s, decl (.unsupported what s) = .unsupported what (span s) := by intros; rfl
  unexpectedToken : ∀ expected found s, error (.unexpectedToken expected found s) =
    .unexpectedToken expected found (span s) := by intros; rfl
  unexpectedEnd : ∀ context,
    error (.unexpectedEnd context) = .unexpectedEnd context := by intros; rfl
  unsupportedPattern : ∀ s,
    error (.unsupportedPattern s) = .unsupportedPattern (span s) := by intros; rfl
  unsupportedSection : ∀ op s,
    error (.unsupportedSection op s) = .unsupportedSection op (span s) := by intros; rfl
  nonAssociative : ∀ op s,
    error (.nonAssociative op s) = .nonAssociative op (span s) := by intros; rfl

namespace View

attribute [simp] merge exprSpan var con lit binOp neg app cond letIn lambda caseOf doBlock tuple list
  function value signature unsupported

variable (v : View)

/-- A token in another place. -/
def located (token : Located Token) : Located Token := ⟨token.value, v.span token.span⟩

/-- A stream in another place, with more behind it. -/
def extend (more : List (Located Token)) (s : Stream) : Stream :=
  ⟨s.prev.map v.span, s.rest.map v.located ++ more⟩

/-- A module in another place. -/
def module (m : Module) : Module :=
  ⟨m.name.map (·.seen v.span), m.exports.map (·.seen v.span), m.decls.map v.decl, v.span m.span⟩

end View

/-! ## Streams -/

/-- The stream ends with a closing parenthesis, unless there is nothing more. -/
def Inside (more : List (Located Token)) (s : Stream) : Prop :=
  more = [] ∨ s.rest.getLast?.map Located.value = some (.punct .rparen)

namespace Inside

variable {more : List (Located Token)} {s s' : Stream} {v : View} {n : Nat}

theorem of_suffix (h : Inside more s') (hrest : s'.rest <:+ s.rest) : Inside more s := by
  refine h.imp id fun hlast => ?_
  obtain ⟨front, hfront⟩ := hrest
  obtain ⟨close, hclose, hvalue⟩ := Option.map_eq_some_iff.mp hlast
  rw [← hfront, List.getLast?_append, hclose]
  exact congrArg some hvalue

/-- A stream that does not end with a parenthesis has nothing more behind it. -/
theorem eq_nil (h : Inside more s)
    (hne : s.rest.getLast?.map Located.value ≠ some (.punct .rparen)) : more = [] :=
  h.resolve_right hne

theorem eq_nil_of_end {prev} (h : Inside more ⟨prev, []⟩) : more = [] :=
  h.eq_nil (Option.some_ne_none _).symm

theorem peek (h : Inside more s) : (v.extend more s).peek = s.peek := by
  obtain ⟨prev, _ | ⟨token, rest⟩⟩ := s
  · cases h.eq_nil_of_end
    rfl
  · rfl

theorem here (h : Inside more s) : (v.extend more s).here = v.span s.here := by
  obtain ⟨prev, _ | ⟨token, rest⟩⟩ := s
  · cases h.eq_nil_of_end
    cases prev with
    | none => exact v.start.symm
    | some last => rfl
  · rfl

theorem before (h : Inside more s) : (v.extend more s).before = v.span s.before := by
  unfold Stream.before
  rw [h.here]
  obtain ⟨_ | last, rest⟩ := s <;> rfl

theorem tail (h : Inside more s) : (v.extend more s).tail = v.extend more s.tail := by
  obtain ⟨prev, _ | ⟨token, rest⟩⟩ := s
  · cases h.eq_nil_of_end
    rfl
  · rfl

theorem drop (h : Inside more (s.drop n)) :
    (v.extend more s).drop n = v.extend more (s.drop n) := by
  induction n generalizing s with
  | zero => rfl
  | succ n ih =>
    have hs : Inside more s := h.of_suffix (s.rest_drop_suffix (n + 1))
    rw [Stream.drop, hs.tail]
    exact ih h

theorem peekAt (h : more = [] ∨ n < s.rest.length) : (v.extend more s).peekAt n = s.peekAt n := by
  have hget : (s.rest.map v.located ++ more)[n]? = s.rest[n]?.map v.located := by
    rcases h with rfl | hn
    · rw [List.append_nil, List.getElem?_map]
    · rw [List.getElem?_append_left (by rwa [List.length_map]), List.getElem?_map]
  unfold Stream.peekAt View.extend
  rw [hget]
  cases s.rest[n]? <;> rfl

theorem peekAt_one (h : Inside more s) (hne : s.peek ≠ .punct .rparen) :
    (v.extend more s).peekAt 1 = s.peekAt 1 := by
  refine peekAt ?_
  obtain ⟨prev, _ | ⟨token, _ | ⟨token', rest⟩⟩⟩ := s
  · exact .inl (h.eq_nil_of_end)
  · exact .inl (h.eq_nil fun hlast => hne (Option.some.inj hlast))
  · exact .inr (Nat.succ_lt_succ (Nat.succ_pos _))

theorem operator? (h : Inside more s) :
    (v.extend more s).operator? = s.operator?.map fun found => (found.1.seen v.span, found.2) := by
  obtain ⟨prev, _ | ⟨⟨first, _⟩, rest⟩⟩ := s
  · cases h.eq_nil_of_end
    rfl
  cases first with
  | punct mark =>
    cases mark with
    | backtick =>
      obtain _ | ⟨⟨second, _⟩, rest⟩ := rest
      · cases h.eq_nil nofun
        rfl
      cases second with
      | varId name =>
        obtain _ | ⟨⟨third, _⟩, rest⟩ := rest
        · cases h.eq_nil nofun
          rfl
        cases third with
        | punct mark => cases mark <;> rfl
        | _ => rfl
      | _ => rfl
    | _ => rfl
  | _ => rfl

/-- An operator ends before a closing parenthesis. -/
theorem peekAt_operator (h : Inside more s) {op width} (hop : s.operator? = some (op, width)) :
    (v.extend more s).peekAt width = s.peekAt width := by
  refine peekAt (h.imp id fun hlast => ?_)
  obtain ⟨prev, rest⟩ := s
  unfold Stream.operator? at hop
  split at hop
  · rename_i tail heq
    cases hop
    cases heq
    obtain _ | ⟨token, tail⟩ := tail
    · cases hlast
    · simp
  · rename_i tail heq
    cases hop
    cases heq
    obtain _ | ⟨token, tail⟩ := tail
    · cases hlast
    · simp
  · cases hop

end Inside

/-! ## Parsers -/

/-- What the second parser answers, given what the first does: the same, seen from elsewhere, unless
the first gives up or reads the closing parenthesis that the stream ends with. Errors are the same
where nothing more stands behind the stream. -/
inductive Answers {α : Type} (v : View) (more : List (Located Token)) (same : Prop) (f : α → α)
    (s : Stream) (answer : Outcome α) : Outcome α → Prop
  | done {a s'} (hrest : s'.rest <:+ s.rest)
      (h : Inside more s' → answer = .done (f a) (v.extend more s')) :
      Answers v more same f s answer (.done a s')
  | failed {e} (h : more = [] → answer = .failed (v.error e)) :
      Answers v more same f s answer (.failed e)
  | exhausted (h : more = [] → same → answer = .exhausted) : Answers v more same f s answer .exhausted

/-- The second parser answers on another stream as the first does on the stream itself. Where the two
have the `same` room, it gives up where the first does. -/
def Follows {α : Type} (v : View) (more : List (Located Token)) (same : Prop) (f : α → α)
    (p q : Parser α) (s : Stream) : Prop :=
  Answers v more same f s (q (v.extend more s)) (p s)

section

variable {α β : Type} {v : View} {more tokens : List (Located Token)} {same : Prop} {f : α → α}
  {g : β → β} {s s' : Stream} {answer out : Outcome α} {prev : Option Span}

/-- An answer about a rest, seen from before it. -/
theorem Answers.behind {answer' : Outcome α} (h : Answers v more same f s' answer' out)
    (hrest : s'.rest <:+ s.rest) (heq : Inside more s' → answer = answer') :
    Answers v more same f s answer out := by
  cases h with
  | done hrest' h =>
    exact .done (hrest'.trans hrest) fun hin => (heq (hin.of_suffix hrest')).trans (h hin)
  | failed h => exact .failed fun hmore => (heq (.inl hmore)).trans (h hmore)
  | exhausted h => exact .exhausted fun hmore hsame => (heq (.inl hmore)).trans (h hmore hsame)

theorem Answers.change (h : Answers v more same f s answer out) {c d : α → α}
    (hc : ∀ a, d (f a) = f (c a)) : Answers v more same f s (answer.change d) (out.change c) := by
  cases h with
  | done hrest h => exact .done hrest fun hin => by rw [h hin, Outcome.change, hc]
  | failed h => exact .failed fun hmore => by rw [h hmore]; rfl
  | exhausted h => exact .exhausted fun hmore hsame => by rw [h hmore hsame]; rfl

theorem Answers.unexpected (expected : String)
    (h : more = [] → answer = Parser.unexpected expected (v.extend [] s')) :
    Answers v more same f s answer (Parser.unexpected expected s') := by
  have hview : Inside [] s' := .inl rfl
  unfold Parser.unexpected at h ⊢
  rw [hview.peek, hview.here] at h
  revert h
  cases s'.peek with
  | eof => exact fun h => .failed fun hmore => (h hmore).trans (by rw [v.unexpectedEnd])
  | _ => exact fun h => .failed fun hmore => (h hmore).trans (by rw [v.unexpectedToken])

namespace Follows

variable {q p : Parser α} {k k' : α → Parser β}

theorem bind (h : Follows v more same f p q s)
    (hk : ∀ a s', Follows v more same g (k a) (k' (f a)) s') :
    Follows v more same g (p >>= k) (q >>= k') s := by
  unfold Follows at h
  show Answers v more same g s (Parser.bind q k' _) (Parser.bind p k s)
  unfold Parser.bind
  cases hp : p s with
  | done a middle =>
    rw [hp] at h
    cases h with
    | done hrest h => exact (hk a middle).behind hrest fun hin => by rw [h hin]
  | failed e =>
    rw [hp] at h
    cases h with
    | failed h => exact .failed fun hmore => by rw [h hmore]
  | exhausted =>
    rw [hp] at h
    cases h with
    | exhausted h => exact .exhausted fun hmore hsame => by rw [h hmore hsame]

theorem pure {a a' : α} (h : a' = f a) :
    Follows v more same f (Pure.pure a : Parser α) (Pure.pure a') s :=
  .done (List.suffix_refl _) fun _ => by rw [h]; rfl

theorem outOfFuel (h : same → q = Parser.outOfFuel) :
    Follows v more same f Parser.outOfFuel q s := .exhausted fun _ hsame => by rw [h hsame]; rfl

theorem fail {e e'} (h : e' = v.error e) :
    Follows v more same f (Parser.fail e : Parser α) (Parser.fail e') s :=
  .failed fun _ => congrArg _ h

theorem unexpected (expected : String) :
    Follows v more same f (Parser.unexpected expected : Parser α) (Parser.unexpected expected) s :=
  Answers.unexpected expected fun hmore => by rw [hmore]

theorem ite {c c'} [Decidable c] [Decidable c'] {p' q'} (h : c' ↔ c)
    (hp : Follows v more same f p q s) (hp' : Follows v more same f p' q' s) :
    Follows v more same f (if c then p else p') (if c' then q else q') s := by
  by_cases hc : c
  · rw [if_pos hc, if_pos (h.mpr hc)]
    exact hp
  · rw [if_neg hc, if_neg (mt h.mp hc)]
    exact hp'

/-- What is seen is known behind it. -/
theorem look_bind {l} (hl : Inside more s → l (v.extend more s) = f (l s))
    (h : Follows v more same g (k (l s)) (k' (f (l s))) s) :
    Follows v more same g (Parser.look l >>= k) (Parser.look l >>= k') s :=
  Answers.behind h (List.suffix_refl _) fun hin => by
    rw [← hl hin]
    rfl

theorem peek_bind {k k'} (h : Follows v more same g (k s.peek) (k' s.peek) s) :
    Follows v more same g (peek >>= k) (peek >>= k') s :=
  look_bind (f := id) (fun hin => hin.peek) h

theorem here_bind {k k'} (h : Follows v more same g (k s.here) (k' (v.span s.here)) s) :
    Follows v more same g (here >>= k) (here >>= k') s := look_bind (fun hin => hin.here) h

theorem before_bind {k k'} (h : Follows v more same g (k s.before) (k' (v.span s.before)) s) :
    Follows v more same g (before >>= k) (before >>= k') s := look_bind (fun hin => hin.before) h

theorem operator_bind {k k'} (h : Follows v more same g (k s.operator?)
      (k' (s.operator?.map fun found => (found.1.seen v.span, found.2))) s) :
    Follows v more same g (Parser.look (·.operator?) >>= k) (Parser.look (·.operator?) >>= k') s :=
  look_bind (fun hin => hin.operator?) h

theorem jump {j} (hrest : (j s).rest <:+ s.rest)
    (h : Inside more (j s) → j (v.extend more s) = v.extend more (j s)) :
    Follows v more same id (Parser.jump j) (Parser.jump j) s :=
  .done hrest fun hin => congrArg (Outcome.done ()) (h hin)

theorem skip (n : Nat) : Follows v more same id (Parser.skip n) (Parser.skip n) s :=
  jump (s.rest_drop_suffix n) fun hin => hin.drop

theorem advance : Follows v more same v.span Parser.advance Parser.advance s := by
  refine .done s.rest_tail_suffix fun hin => ?_
  have hs : Inside more s := hin.of_suffix s.rest_tail_suffix
  rw [Parser.advance, hs.here, hs.tail]

theorem expect (token : Token) :
    Follows v more same v.span (Parser.expect token) (Parser.expect token) s := by
  refine peek_bind ?_
  split
  · exact advance
  · exact unexpected _

theorem eat (token : Token) : Follows v more same id (Parser.eat token) (Parser.eat token) s := by
  refine peek_bind ?_
  split
  · exact bind advance fun _ _ => pure rfl
  · exact pure rfl

theorem expectName : Follows v more same (·.seen v.span) Parser.expectName Parser.expectName s := by
  refine peek_bind ?_
  split
  · exact bind advance fun _ _ => pure rfl
  · exact unexpected _

end Follows

/-! ## Skipped parts and lists -/

theorem scan_extend (stops : Nat → Token → Bool) (weight : Token → Int) {depth : Nat}
    (h : Inside more (scan stops weight depth prev tokens)) :
    scan stops weight depth (prev.map v.span) (tokens.map v.located ++ more) =
      v.extend more (scan stops weight depth prev tokens) := by
  induction tokens generalizing depth prev with
  | nil =>
    cases h.eq_nil_of_end
    rfl
  | cons token rest ih =>
    simp only [List.map_cons, List.cons_append, View.located, scan] at h ⊢
    split
    · rfl
    · rename_i hstops
      rw [if_neg hstops] at h
      exact ih h

theorem splitNames_extend (h : Inside more (Stream.splitNames prev tokens).2) :
    Stream.splitNames (prev.map v.span) (tokens.map v.located ++ more) =
      ((Stream.splitNames prev tokens).1.map (·.seen v.span),
        v.extend more (Stream.splitNames prev tokens).2) := by
  induction tokens generalizing prev with
  | nil =>
    cases h.eq_nil_of_end
    rfl
  | cons token rest ih =>
    obtain ⟨value, span⟩ := token
    cases value with
    | varId name =>
      have hrest := @ih (some span) h
      rw [Option.map_some] at hrest
      simp only [List.map_cons, List.cons_append, View.located, Stream.splitNames, hrest]
      rfl
    | _ => rfl

theorem dropBlock_answers (inner : Nat) (prev : Option Span) (tokens : List (Located Token)) :
    Answers v more same id ⟨prev, tokens⟩
      (dropBlock inner (prev.map v.span) (tokens.map v.located ++ more))
      (dropBlock inner prev tokens) := by
  have hrest := (scan_passes (groupStops .rbrace) (pairWeight .lbrace .rbrace) inner prev tokens).suffix
  have hextend (h : Inside more (scan _ _ inner prev tokens)) :=
    scan_extend (v := v) (groupStops .rbrace) (pairWeight .lbrace .rbrace) h
  rw [dropBlock_eq_scan, dropBlock_eq_scan]
  generalize scan _ _ inner prev tokens = s at hrest hextend
  by_cases hclose : s.peek = .punct .rbrace
  · simp only [if_pos hclose]
    refine .done (s.rest_tail_suffix.trans hrest) fun hin => ?_
    have hs : Inside more s := hin.of_suffix s.rest_tail_suffix
    rw [hextend hs, hs.peek, if_pos hclose, hs.tail]
  · simp only [if_neg hclose]
    refine .unexpected _ fun hmore => ?_
    have hs : Inside more s := .inl hmore
    rw [hextend hs, hs.peek, if_neg hclose, hmore]

theorem splitCommaNames_answers (prev : Option Span) (tokens : List (Located Token)) :
    Answers v more same (List.map (·.seen v.span)) ⟨prev, tokens⟩
      (splitCommaNames (prev.map v.span) (tokens.map v.located ++ more))
      (splitCommaNames prev tokens) := by
  induction prev, tokens using splitCommaNames.induct with
  | case1 prev span name span' rest _ _ _ ih | case2 prev span name span' rest _ ih =>
    have hrest : rest <:+ ⟨.punct .comma, span⟩ :: ⟨.varId name, span'⟩ :: rest :=
      (List.suffix_cons _ rest).trans (List.suffix_cons _ _)
    have hnames := ih.behind (s := ⟨prev, _⟩) hrest fun _ => rfl
    simp only [List.map_cons, List.cons_append, View.located, splitCommaNames_cons]
    exact hnames.change fun _ => rfl
  | case3 prev span rest hother =>
    rw [splitCommaNames_comma prev span hother]
    refine .unexpected _ ?_
    rintro rfl
    obtain _ | ⟨⟨value, place⟩, rest⟩ := rest
    · rfl
    · cases value with
      | varId name => exact (hother name place rest rfl).elim
      | _ => simp [View.extend, View.located, splitCommaNames]
  | case4 prev tokens _ hother =>
    rw [splitCommaNames_stop prev hother]
    refine .done (List.suffix_refl tokens) fun hin => ?_
    obtain _ | ⟨⟨value, span⟩, rest⟩ := tokens
    · cases hin.eq_nil_of_end
      rfl
    · refine splitCommaNames_stop _ fun place more' heq => ?_
      cases heq
      exact hother span rest rfl

theorem splitExports_answers (inner : Nat) (prev : Option Span) (tokens : List (Located Token)) :
    Answers v more same (List.map (·.seen v.span)) ⟨prev, tokens⟩
      (splitExports inner (prev.map v.span) (tokens.map v.located ++ more))
      (splitExports inner prev tokens) := by
  induction tokens generalizing inner prev with
  | nil =>
    refine .unexpected _ ?_
    rintro rfl
    rfl
  | cons token rest ih =>
    have hmore (inner : Nat) : Answers v more same (List.map (·.seen v.span)) ⟨prev, token :: rest⟩
        (splitExports inner (some (v.span token.span)) (rest.map v.located ++ more))
        (splitExports inner (some token.span) rest) :=
      (ih inner (some token.span)).behind (List.suffix_cons token rest) fun _ => rfl
    have hname := hmore inner
    simp only [List.map_cons, List.cons_append, splitExports, View.located]
    split
    · refine .unexpected _ ?_
      rintro rfl
      rw [View.extend, List.append_nil]
      rfl
    · exact hmore _
    · split
      · exact .done (List.suffix_cons token rest) fun _ => rfl
      · exact hmore _
    -- a name of either case is exported, if no inner parenthesis is open
    iterate 2
      · rename_i name _
        have hchanged := hname.change
          (c := fun ids => if inner = 0 then ⟨name, token.span⟩ :: ids else ids)
          (d := fun ids => if inner = 0 then ⟨name, v.span token.span⟩ :: ids else ids)
          fun ids => by split <;> rfl
        revert hchanged
        cases splitExports inner (some token.span) rest <;>
          cases splitExports inner (some (v.span token.span)) (rest.map v.located ++ more) <;>
          exact id
    · exact hmore _

theorem splitDotted_extend (id : Ident) (prev : Option Span) (tokens : List (Located Token)) :
    splitDotted (id.seen v.span) (prev.map v.span) (tokens.map v.located) =
      ((splitDotted id prev tokens).1.seen v.span, v.extend [] (splitDotted id prev tokens).2) := by
  induction id, prev, tokens using splitDotted.induct with
  | case1 id prev span part span' rest ih =>
    simp only [splitDotted, List.map_cons, View.located]
    rw [← ih]
    simp [Ident.seen]
  | case2 id prev tokens hother =>
    rw [splitDotted_stop id prev hother, splitDotted_stop]
    · rw [View.extend, List.append_nil]
    · intro span part span' rest heq
      obtain ⟨⟨_, place⟩, _, rfl, hfirst, hrest⟩ := List.map_eq_cons_iff.mp heq
      obtain ⟨⟨_, place'⟩, rest', rfl, hsecond, -⟩ := List.map_eq_cons_iff.mp hrest
      cases hfirst
      cases hsecond
      exact hother place part place' rest' rfl

namespace Follows

theorem names : Follows v more same (List.map (·.seen v.span)) Parser.names Parser.names s := by
  refine .done (Stream.splitNames_passes s.prev s.rest).suffix fun hin => ?_
  have hnames := splitNames_extend (v := v) hin
  simp only [Parser.names, View.extend] at hnames ⊢
  rw [hnames]

theorem dropSemis : Follows v more same id (Parser.jump fun s => s.rest |> Stream.dropSemis s.prev)
    (Parser.jump fun s => s.rest |> Stream.dropSemis s.prev) s := by
  simp only [dropSemis_eq_scan]
  exact jump (scan_passes ..).suffix fun hin => scan_extend _ _ hin

theorem skipDecl : Follows v more same id Parser.skipDecl Parser.skipDecl s := by
  unfold Parser.skipDecl
  simp only [dropDecl_eq_scan]
  exact jump (scan_passes ..).suffix fun hin => scan_extend _ _ hin

theorem skipType : Follows v more same id Parser.skipType Parser.skipType s := by
  unfold Parser.skipType
  simp only [dropType_eq_scan]
  exact jump (scan_passes ..).suffix fun hin => scan_extend _ _ hin

theorem skipBlock : Follows v more same id Parser.skipBlock Parser.skipBlock s :=
  bind (expect _) fun _ s' => dropBlock_answers 0 s'.prev s'.rest

theorem skipSemiBefore (token : Token) :
    Follows v more same id (Parser.skipSemiBefore token) (Parser.skipSemiBefore token) s := by
  refine jump ?_ fun hin => ?_
  · split
    · exact s.rest_tail_suffix
    · exact List.suffix_refl _
  · have hs : Inside more s := by
      split at hin
      · exact hin.of_suffix s.rest_tail_suffix
      · exact hin
    by_cases hsemi : s.peek = .punct .semi
    · rw [hs.peek, hs.peekAt_one (by rw [hsemi]; nofun)]
      split
      · exact hs.tail
      · rfl
    · rw [hs.peek, if_neg fun h => hsemi h.1, if_neg fun h => hsemi h.1]

theorem signature : Follows v more same v.decl Parser.signature Parser.signature s := by
  refine here_bind ?_
  refine bind expectName fun first s' => ?_
  refine bind (splitCommaNames_answers s'.prev s'.rest) fun rest s' => ?_
  refine bind (expect _) fun _ s' => ?_
  refine bind skipDecl fun _ s' => ?_
  exact before_bind (pure (by simp))

theorem bindingParams :
    Follows v more same (List.map (·.seen v.span)) Parser.bindingParams Parser.bindingParams s := by
  refine bind names fun params s' => ?_
  refine peek_bind ?_
  split
  · exact pure rfl
  · split
    · exact here_bind (fail (v.unsupportedPattern _).symm)
    · exact unexpected _

theorem lambdaParams :
    Follows v more same (List.map (·.seen v.span)) Parser.lambdaParams Parser.lambdaParams s := by
  refine bind names fun params s' => ?_
  refine peek_bind ?_
  rw [List.isEmpty_map]
  split
  · exact pure rfl
  · split
    · exact here_bind (fail (v.unsupportedPattern _).symm)
    · exact unexpected _

theorem moduleName : Follows v [] same (·.seen v.span) Parser.moduleName Parser.moduleName s := by
  refine peek_bind ?_
  split
  · rename_i name _
    refine bind advance fun span s' => ?_
    refine .done (splitDotted_passes ⟨name, span⟩ s'.prev s'.rest).suffix fun _ => ?_
    have hname := splitDotted_extend (v := v) ⟨name, span⟩ s'.prev s'.rest
    simp only [View.extend, List.append_nil] at hname ⊢
    exact congrArg (fun found => Outcome.done found.1 found.2) hname
  · exact unexpected _

theorem header : Follows v [] same
    (fun top => (top.1.map (·.seen v.span), top.2.map (·.seen v.span))) Parser.header Parser.header
    s := by
  refine bind (eat _) fun found s' => ?_
  refine ite Iff.rfl ?_ (pure rfl)
  refine bind moduleName fun name s' => ?_
  have hlast (ids : List Ident) (s' : Stream) : Follows v [] same
      (fun top => (top.1.map (·.seen v.span), top.2.map (·.seen v.span)))
      (do
        let _ ← Parser.expect (.keyword .whereKw)
        Pure.pure (some name, ids) : Parser (Option Ident × List Ident))
      (do
        let _ ← Parser.expect (.keyword .whereKw)
        Pure.pure (some (name.seen v.span), ids.map (·.seen v.span))) s' :=
    bind (expect _) fun _ _ => pure rfl
  have hids : Follows v [] same (List.map (·.seen v.span)) exportList exportList s' :=
    bind (expect _) fun _ s' => splitExports_answers 0 s'.prev s'.rest
  refine peek_bind (ite Iff.rfl ?_ ?_)
  · exact bind hids hlast
  · exact hlast [] s'

end Follows

end

/-! ## The grammar -/

/-- Every rule of the grammar, with room for `m` rules, follows the rule with room for `n`. -/
structure FollowsGrammar (v : View) (more : List (Located Token)) (same : Prop) (n m : Nat) :
    Prop where
  block : ∀ s, Follows v more same (List.map v.decl) (block n) (block m) s
  decls : ∀ s, Follows v more same (List.map v.decl) (decls n) (decls m) s
  decl : ∀ s, Follows v more same v.decl (decl n) (decl m) s
  binding : ∀ s, Follows v more same v.decl (binding n) (binding m) s
  whereBlock : ∀ value s,
    Follows v more same v.expr (whereBlock n value) (whereBlock m (v.expr value)) s
  expr : ∀ s, Follows v more same v.expr (expr n) (expr m) s
  chain : ∀ level s, Follows v more same v.expr (chain n level) (chain m level) s
  chainAfter : ∀ level lhs s,
    Follows v more same v.expr (chainAfter n level lhs) (chainAfter m level (v.expr lhs)) s
  operand : ∀ s, Follows v more same v.expr (operand n) (operand m) s
  compound : ∀ s, Follows v more same v.expr (compound n) (compound m) s
  args : ∀ func s, Follows v more same v.expr (args n func) (args m (v.expr func)) s
  atom : ∀ s, Follows v more same v.expr (atom n) (atom m) s
  paren : ∀ s, Follows v more same v.expr (paren n) (paren m) s
  grouped : ∀ start s, Follows v more same v.expr (grouped n start) (grouped m (v.span start)) s
  elements : ∀ s, Follows v more same (List.map v.expr) (elements n) (elements m) s
  moreElements : ∀ s, Follows v more same (List.map v.expr) (moreElements n) (moreElements m) s

namespace FollowsGrammar

variable {v : View} {more : List (Located Token)} {same : Prop} {n m : Nat}

/-- Without room every rule gives up. -/
theorem zero (h : same → m = 0) : FollowsGrammar v more same 0 m := by
  constructor <;> intros <;> exact .outOfFuel fun hsame => by rw [h hsame]; rfl

section

variable (h : FollowsGrammar v more same n m) (s : Stream)

include h

theorem decls_succ :
    Follows v more same (List.map v.decl) (Parser.decls (n + 1)) (Parser.decls (m + 1)) s := by
  refine .bind .dropSemis fun _ s' => ?_
  refine .bind (.eat _) fun found s' => .ite Iff.rfl (.pure rfl) ?_
  refine .bind (h.decl s') fun first s' => ?_
  refine .peek_bind (.ite Iff.rfl ?_ (.unexpected _))
  exact .bind (h.decls s') fun rest s' => .pure rfl

theorem decl_succ : Follows v more same v.decl (Parser.decl (n + 1)) (Parser.decl (m + 1)) s := by
  refine .peek_bind ?_
  split
  · refine .here_bind ?_
    refine .bind .skipDecl fun _ s' => ?_
    exact .before_bind (.pure (by simp))
  · refine .peek_bind ?_
    split
    · rename_i hname
      refine .look_bind (f := id) (fun hin => hin.peekAt_one (by rw [hname]; nofun)) ?_
      exact .ite Iff.rfl .signature (h.binding s)
    · exact .unexpected _

theorem binding_succ :
    Follows v more same v.decl (Parser.binding (n + 1)) (Parser.binding (m + 1)) s := by
  refine .bind .expectName fun name s' => ?_
  refine .bind .bindingParams fun params s' => ?_
  refine .bind (.expect _) fun _ s' => ?_
  refine .bind (h.expr s') fun value s' => ?_
  refine .bind (h.whereBlock value s') fun body s' => ?_
  refine .before_bind (.pure ?_)
  rw [List.isEmpty_map]
  split
  · simp [Ident.seen]
  · simp [Ident.seen]

theorem whereBlock_succ (value : Expr) : Follows v more same v.expr
    (Parser.whereBlock (n + 1) value) (Parser.whereBlock (m + 1) (v.expr value)) s := by
  refine .bind (.eat _) fun found s' => .ite Iff.rfl ?_ (.pure rfl)
  refine .before_bind ?_
  refine .bind (h.block s') fun locals s' => ?_
  exact .before_bind (.pure (by simp))

theorem expr_succ : Follows v more same v.expr (Parser.expr (n + 1)) (Parser.expr (m + 1)) s := by
  refine .bind (h.chain 0 s) fun value s' => ?_
  refine .bind (.eat _) fun found s' => .ite Iff.rfl ?_ (.pure rfl)
  exact .bind .skipType fun _ s' => .pure rfl

theorem chainAfter_succ (level : Nat) (lhs : Expr) : Follows v more same v.expr
    (Parser.chainAfter (n + 1) level lhs) (Parser.chainAfter (m + 1) level (v.expr lhs)) s := by
  refine .operator_bind ?_
  cases hop : s.operator? with
  | none => exact .pure rfl
  | some found =>
    obtain ⟨op, width⟩ := found
    refine .look_bind (f := id) (fun hin => hin.peekAt_operator hop) ?_
    refine .ite Iff.rfl (.pure rfl) ?_
    refine .bind (.skip width) fun _ s' => ?_
    refine .bind (h.chain (Fixity.ofName op.name).rightLevel s') fun rhs s' => ?_
    have hwhole : Expr.binOp (op.seen v.span) (v.expr lhs) (v.expr rhs)
        ((v.expr lhs).span.merge (v.expr rhs).span) =
        v.expr (.binOp op lhs rhs (lhs.span.merge rhs.span)) := by simp
    refine .operator_bind ?_
    dsimp only
    rw [hwhole]
    cases s'.operator? with
    | none => exact .pure rfl
    | some next =>
      exact .ite Iff.rfl (.fail (v.nonAssociative ..).symm) (h.chainAfter level _ s')

theorem operand_succ :
    Follows v more same v.expr (Parser.operand (n + 1)) (Parser.operand (m + 1)) s := by
  refine .peek_bind (.ite Iff.rfl ?_ (h.compound s))
  refine .bind .advance fun start s' => ?_
  exact .bind (h.chain _ s') fun arg s' => .pure (by simp)

theorem compound_succ :
    Follows v more same v.expr (Parser.compound (n + 1)) (Parser.compound (m + 1)) s := by
  refine .peek_bind ?_
  split
  · -- a lambda
    refine .bind .advance fun start s' => ?_
    refine .bind .lambdaParams fun params s' => ?_
    refine .bind (.expect _) fun _ s' => ?_
    exact .bind (h.expr s') fun body s' => .pure (by simp)
  · -- a block and the expression it is for
    refine .bind .advance fun start s' => ?_
    refine .bind (h.block s') fun locals s' => ?_
    refine .bind (.expect _) fun _ s' => ?_
    exact .bind (h.expr s') fun body s' => .pure (by simp)
  · -- a conditional
    refine .bind .advance fun start s' => ?_
    refine .bind (h.expr s') fun test s' => ?_
    refine .bind (.skipSemiBefore _) fun _ s' => ?_
    refine .bind (.expect _) fun _ s' => ?_
    refine .bind (h.expr s') fun onTrue s' => ?_
    refine .bind (.skipSemiBefore _) fun _ s' => ?_
    refine .bind (.expect _) fun _ s' => ?_
    exact .bind (h.expr s') fun onFalse s' => .pure (by simp)
  · -- alternatives are skipped, and so are the statements of the next form
    refine .bind .advance fun start s' => ?_
    refine .bind (h.expr s') fun scrutinee s' => ?_
    refine .bind (.expect _) fun _ s' => ?_
    refine .bind .skipBlock fun _ s' => ?_
    exact .before_bind (.pure (by simp))
  · refine .bind .advance fun start s' => ?_
    refine .bind .skipBlock fun _ s' => ?_
    exact .before_bind (.pure (by simp))
  · exact .bind (h.atom s) fun func s' => h.args func s'

theorem args_succ (func : Expr) : Follows v more same v.expr (Parser.args (n + 1) func)
    (Parser.args (m + 1) (v.expr func)) s := by
  refine .peek_bind (.ite Iff.rfl ?_ (.pure rfl))
  refine .bind (h.atom s) fun arg s' => ?_
  have happ := h.args (.app func arg (func.span.merge arg.span)) s'
  simp only [View.app, View.merge, ← View.exprSpan] at happ
  exact happ

theorem atom_succ : Follows v more same v.expr (Parser.atom (n + 1)) (Parser.atom (m + 1)) s := by
  refine .peek_bind ?_
  cases s.peek with
  | varId | conId | int | str => exact .bind .advance fun _ _ => .pure (by simp [Ident.seen])
  | punct mark =>
    cases mark with
    | lparen => exact h.paren s
    | lbracket =>
      refine .bind .advance fun start s' => ?_
      have hlast (elems : List Expr) (s' : Stream) : Follows v more same v.expr
          (do
            let stop ← expect (.punct .rbracket)
            Pure.pure (Expr.list elems (start.merge stop)) : Parser Expr)
          (do
            let stop ← expect (.punct .rbracket)
            Pure.pure (Expr.list (elems.map v.expr) ((v.span start).merge stop))) s' :=
        .bind (.expect _) fun _ _ => .pure (by simp)
      refine .peek_bind (.ite Iff.rfl ?_ ?_)
      · exact hlast [] s'
      · exact .bind (h.elements s') hlast
    | _ => exact .unexpected _
  | _ => exact .unexpected _

theorem paren_succ :
    Follows v more same v.expr (Parser.paren (n + 1)) (Parser.paren (m + 1)) s := by
  refine .bind (.expect _) fun start s' => ?_
  refine .peek_bind (.ite Iff.rfl ?_ ?_)
  · exact .bind .advance fun stop s' => .pure (by simp [Ident.seen])
  · refine .operator_bind ?_
    cases hop : s'.operator? with
    | none => exact h.grouped start s'
    | some found =>
      refine .look_bind (f := id) (fun hin => hin.peekAt_operator hop) (.ite Iff.rfl ?_ ?_)
      · refine .bind (.skip _) fun _ s' => ?_
        exact .bind .advance fun stop s' => .pure (by simp [Ident.seen])
      · exact .ite Iff.rfl (h.grouped start s') (.fail (v.unsupportedSection ..).symm)

theorem grouped_succ (start : Span) : Follows v more same v.expr (Parser.grouped (n + 1) start)
    (Parser.grouped (m + 1) (v.span start)) s := by
  refine .bind (h.expr s) fun first s' => ?_
  refine .operator_bind ?_
  cases s'.operator? with
  | some found => exact .fail (v.unsupportedSection ..).symm
  | none =>
    refine .peek_bind (.ite Iff.rfl ?_ ?_)
    · refine .bind (h.moreElements s') fun rest s' => ?_
      exact .bind (.expect _) fun stop s' => .pure (by simp)
    · exact .bind (.expect _) fun _ s' => .pure rfl

theorem succ : FollowsGrammar v more same (n + 1) (m + 1) where
  block _ := .bind (.expect _) fun _ s' => h.decls s'
  decls := h.decls_succ
  decl := h.decl_succ
  binding := h.binding_succ
  whereBlock value s := h.whereBlock_succ s value
  expr := h.expr_succ
  chain level s := .bind (h.operand s) fun lhs s' => h.chainAfter level lhs s'
  chainAfter level lhs s := h.chainAfter_succ s level lhs
  operand := h.operand_succ
  compound := h.compound_succ
  args func s := h.args_succ s func
  atom := h.atom_succ
  paren := h.paren_succ
  grouped start s := h.grouped_succ s start
  elements s := .bind (h.expr s) fun _ s' => .bind (h.moreElements s') fun _ _ => .pure rfl
  moreElements _ := .bind (.eat _) fun _ s' => .ite Iff.rfl (h.elements s') (.pure rfl)

end

/-- **Room, places and what lies beyond do not matter.** With more room, every rule answers as
before, in other places too, and goes on before a closing parenthesis as if nothing stood behind
it. -/
theorem all (hnm : n ≤ m) (hsame : same → n = m) : FollowsGrammar v more same n m := by
  induction n generalizing m with
  | zero => exact zero fun h => (hsame h).symm
  | succ n ih =>
    obtain _ | m := m
    · omega
    · exact (ih (Nat.le_of_succ_le_succ hnm) fun h => Nat.succ.inj (hsame h)).succ

end FollowsGrammar

theorem wholeModule_follows {v same n m} (hnm : n ≤ m) (hsame : same → n = m) (s : Stream) :
    Follows v [] same v.module (wholeModule n) (wholeModule m) s := by
  refine .here_bind (.bind .header fun top s' => ?_)
  refine .bind ((FollowsGrammar.all hnm hsame).block s') fun decls s' => ?_
  refine .peek_bind (.ite Iff.rfl ?_ (.unexpected _))
  exact .before_bind (.pure (by simp [View.module]))

end Lamina.Surface
