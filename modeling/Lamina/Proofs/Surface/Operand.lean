import Lamina.Proofs.Surface.Beyond

/-!
# Operands

An operand of an operator is an application of atoms: names, literals, and expressions in
parentheses. The parser reads an operand up to its last token, whatever stands behind it, as long
as that is not another atom.
-/

namespace Lamina.Surface

open Lamina.Surface.Parser

variable {tokens : List (Located Token)} {s : Stream} {e : Expr} {start : Span}

/-! ## Enough room -/

/-- Places are seen as they are. -/
def View.exact : View where
  span := id
  expr := id
  decl := id
  error := id
  start := rfl
  exprSpan _ := rfl
  letIn decls body s := by rw [List.map_id]; rfl
  lambda params body s := congrArg (Expr.lambda · body s) (List.map_id params).symm
  tuple elems s := by rw [List.map_id]; rfl
  list elems s := by rw [List.map_id]; rfl
  function name params body s :=
    congrArg (Decl.function name · body s) (List.map_id params).symm
  signature names s := congrArg (Decl.signature · s) (List.map_id names).symm

theorem View.extend_exact (more : List (Located Token)) (s : Stream) :
    View.exact.extend more s = ⟨s.prev, s.rest ++ more⟩ := by
  show Stream.mk (s.prev.map id) (s.rest.map id ++ more) = _
  rw [Option.map_id, List.map_id]
  rfl

/-- With enough room, a rule gives this answer on the stream. -/
def Settles {α : Type} (p : Nat → Parser α) (s : Stream) (answer : Outcome α) : Prop :=
  ∃ n, ∀ m, n ≤ m → p m s = answer

namespace Settles

variable {α β : Type} {s s' : Stream} {p : Nat → Parser α} {answer : Outcome α}
  {k : Nat → α → Parser β}

theorem always (h : ∀ n, p n s = answer) : Settles p s answer :=
  ⟨0, fun m _ => h m⟩

/-- A rule enters other rules with a little less room. -/
theorem succ (h : Settles (fun n => p (n + 1)) s answer) : Settles p s answer := by
  obtain ⟨n, hn⟩ := h
  refine ⟨n + 1, fun m hm => ?_⟩
  obtain ⟨m, rfl⟩ : ∃ k, m = k + 1 := ⟨m - 1, by omega⟩
  exact hn m (by omega)

theorem congr {q} (h : Settles q s' answer) (heq : ∀ n, p n s = q n s') : Settles p s answer := by
  obtain ⟨n, hn⟩ := h
  exact ⟨n, fun m hm => (heq m).trans (hn m hm)⟩

theorem bind {a answer} (h : Settles p s (.done a s')) (hk : Settles (fun n => k n a) s' answer) :
    Settles (fun n => p n >>= k n) s answer := by
  obtain ⟨n, hn⟩ := h
  obtain ⟨n', hn'⟩ := hk
  refine ⟨n + n', fun m hm => ?_⟩
  show (p m >>= k m) s = answer
  rw [run_bind (hn m (by omega))]
  exact hn' m (by omega)

/-- A step that takes no room. -/
theorem after {t p a answer} (h : p s = .done a t) (hk : Settles (fun n => k n a) t answer) :
    Settles (fun n => p >>= k n) s answer :=
  .bind (.always fun _ => h) hk

theorem bind_failed {e} (h : Settles p s (.failed e)) :
    Settles (fun n => p n >>= k n) s (.failed e) := by
  obtain ⟨n, hn⟩ := h
  exact ⟨n, fun m hm => Surface.bind_failed (hn m hm)⟩

/-- There is one answer to settle on. -/
theorem unique {one two : Outcome α} (h : Settles p s one) (h' : Settles p s two) : one = two := by
  obtain ⟨n, hn⟩ := h
  obtain ⟨n', hn'⟩ := h'
  exact (hn (n + n') (by omega)).symm.trans (hn' (n + n') (by omega))

end Settles

/-- A rule that settles on an answer keeps it with more room. -/
theorem Follows.settled {α} {f : α → α} {p q} (hf : ∀ a, f a = a)
    (h : Follows View.exact [] False f p q s) (hne : p s ≠ .exhausted) : q s = p s := by
  unfold Follows at h
  rw [View.extend_exact, List.append_nil] at h
  generalize p s = out at h hne
  cases h with
  | done _ h =>
    rw [h (.inl rfl), View.extend_exact, List.append_nil, hf]
  | failed h => exact h rfl
  | exhausted => exact absurd rfl hne

theorem expr_ne_exhausted {n : Nat} (h : nestingBound tokens ≤ n) :
    expr n (.ofTokens tokens) ≠ .exhausted := by
  refine ((SpendsGrammar.all _).expr _).settled (Nat.le_trans ?_ h)
  show 12 * tokens.length + 6 ≤ 12 * (tokens.length + 2)
  omega

/-- The bound that `parseExpr` supplies is enough room. -/
theorem expr_eq {n : Nat} (h : nestingBound tokens ≤ n) :
    expr n (.ofTokens tokens) = expr (nestingBound tokens) (.ofTokens tokens) :=
  ((FollowsGrammar.all h nofun).expr _).settled (fun _ => rfl) (expr_ne_exhausted (Nat.le_refl _))

theorem parseExpr_of_settles {answer} (h : Settles expr (.ofTokens tokens) answer) :
    parseExpr tokens = answer.result := by
  obtain ⟨n, hn⟩ := h
  rw [parseExpr, ← expr_eq (Nat.le_add_right (nestingBound tokens) n), hn _ (Nat.le_add_left n _)]

theorem View.module_exact (m : Module) : View.exact.module m = m := by
  obtain ⟨name, ids, decls, span⟩ := m
  simp only [View.module, View.exact, Ident.seen, List.map_id, List.map_id', Option.map_id', id]

theorem wholeModule_ne_exhausted {n : Nat} (h : nestingBound tokens ≤ n) :
    wholeModule n (.ofTokens tokens) ≠ .exhausted := by
  refine (wholeModule_spends n _).settled (Nat.le_trans ?_ h)
  show 12 * tokens.length + 1 ≤ 12 * (tokens.length + 2)
  omega

theorem wholeModule_eq {n : Nat} (h : nestingBound tokens ≤ n) :
    wholeModule n (.ofTokens tokens) = wholeModule (nestingBound tokens) (.ofTokens tokens) :=
  (wholeModule_follows h nofun _).settled View.module_exact (wholeModule_ne_exhausted (Nat.le_refl _))

theorem parseModule_of_settles {answer} (h : Settles wholeModule (.ofTokens tokens) answer) :
    parseModule tokens = answer.result := by
  obtain ⟨n, hn⟩ := h
  rw [parseModule, ← wholeModule_eq (Nat.le_add_right (nestingBound tokens) n),
    hn _ (Nat.le_add_left n _)]

/-! ## What an expression starts with -/

/-- Does no expression start with the token, other than one with a minus before it? -/
def startsNothing : Token → Bool
  | .punct .rparen | .punct .backtick | .op _ => true
  | _ => false

theorem startsNothing_of_startsAtom {token : Token} (h : startsAtom token) :
    startsNothing token = false := by
  cases token with
  | punct mark =>
    cases mark with
    | rparen | backtick => cases h
    | _ => rfl
  | op => cases h
  | _ => rfl

theorem compound_atom (n : Nat) (h : startsAtom s.peek ∨ startsNothing s.peek) :
    compound (n + 1) s = (atom n >>= args n) s := by
  rw [compound, run_bind (peek_run s)]
  revert h
  cases s.peek with
  | reserved symbol =>
    intro h
    rcases h with h | h <;> cases h
  | keyword word =>
    intro h
    rcases h with h | h <;> cases h
  | _ => exact fun _ => rfl

section

variable {n : Nat} {s s' : Stream} {e : Expr}

theorem atom_ne_done (h : startsNothing s.peek) : atom n s ≠ .done e s' := by
  intro hdone
  obtain _ | n := n
  · cases hdone
  have hfailed : atom (n + 1) s = unexpected "expression" s := by
    obtain ⟨prev, _ | ⟨⟨value, span⟩, rest⟩⟩ := s
    · cases h
    · cases value with
      | op name => rfl
      | punct mark =>
        cases mark with
        | rparen | backtick => rfl
        | _ => cases h
      | _ => cases h
  obtain ⟨error, herror⟩ := unexpected_failed (α := Expr) "expression" s
  cases (hfailed.trans herror).symm.trans hdone

theorem operand_ne_done (h : startsNothing s.peek) (hminus : s.peek ≠ .op "-") :
    operand n s ≠ .done e s' := by
  intro hdone
  obtain _ | _ | n := n
  · cases hdone
  · rw [operand, run_bind (peek_run s), if_neg hminus] at hdone
    cases hdone
  · rw [operand, run_bind (peek_run s), if_neg hminus, compound_atom n (.inr h)] at hdone
    obtain ⟨func, s₁, hatom, -⟩ := done_of_bind hdone
    exact atom_ne_done h hatom

theorem chain_ne_done {level : Nat} (h : startsNothing s.peek) (hminus : s.peek ≠ .op "-") :
    chain n level s ≠ .done e s' := by
  intro hdone
  obtain _ | n := n
  · cases hdone
  obtain ⟨lhs, s₁, hoperand, -⟩ := done_of_bind hdone
  exact operand_ne_done h hminus hoperand

/-- An expression with a minus at its start goes on behind the minus. -/
theorem operand_minus (h : operand n s = .done e s') (hminus : s.peek = .op "-") :
    s.peekAt 1 ≠ .punct .rparen := by
  rw [← s.peek_drop 1, Stream.drop, Stream.drop]
  intro hclose
  obtain _ | n := n
  · cases h
  rw [operand, run_bind (peek_run s), if_pos hminus] at h
  obtain ⟨start, s₁, hadvance, h⟩ := done_of_bind h
  cases hadvance
  obtain ⟨arg, s₂, hchain, -⟩ := done_of_bind h
  refine chain_ne_done ?_ ?_ hchain
  · rw [hclose]
    rfl
  · rw [hclose]
    exact Token.noConfusion

theorem expr_start (h : expr n s = .done e s') :
    startsNothing s.peek = false ∨ s.peek = .op "-" ∧ s.peekAt 1 ≠ .punct .rparen := by
  obtain _ | _ | n := n
  · cases h
  · obtain ⟨value, s₁, hchain, -⟩ := done_of_bind h
    cases hchain
  obtain ⟨value, s₁, hchain, -⟩ := done_of_bind h
  obtain ⟨lhs, s₂, hoperand, -⟩ := done_of_bind hchain
  by_cases hminus : s.peek = .op "-"
  · exact .inr ⟨hminus, operand_minus hoperand hminus⟩
  · cases hstart : startsNothing s.peek with
    | false => exact .inl rfl
    | true => exact absurd hoperand (operand_ne_done hstart hminus)

end

/-! ## Atoms -/

/-- The tokens of an atom, and the expression that they make up. -/
inductive AtomText : List (Located Token) → Expr → Prop
  | var (name : String) (span : Span) : AtomText [⟨.varId name, span⟩] (.var ⟨name, span⟩)
  | con (name : String) (span : Span) : AtomText [⟨.conId name, span⟩] (.con ⟨name, span⟩)
  | int (value : Int64) (span : Span) : AtomText [⟨.int value, span⟩] (.lit (.int value) span)
  | str (text : String) (span : Span) : AtomText [⟨.str text, span⟩] (.lit (.str text) span)
  /-- An expression in parentheses: it is read up to the closing one. -/
  | paren {n start inner close e last} (hclose : close.value = .punct .rparen)
      (h : expr n ⟨some start, inner ++ [close]⟩ = .done e ⟨last, [close]⟩) :
      AtomText (⟨.punct .lparen, start⟩ :: (inner ++ [close])) e

theorem AtomText.starts (h : AtomText tokens e) :
    ∃ token rest, tokens = token :: rest ∧ startsAtom token.value := by
  cases h <;> exact ⟨_, _, rfl, rfl⟩

theorem operator?_eq_none (h : startsNothing s.peek = false) : s.operator? = none := by
  obtain ⟨prev, _ | ⟨⟨value, span⟩, rest⟩⟩ := s
  · rfl
  · cases value with
    | op name => cases h
    | punct mark =>
      cases mark with
      | backtick => cases h
      | _ => rfl
    | _ => rfl

theorem operator?_of_op {name : String} (h : s.peek = .op name) :
    ∃ span, s.operator? = some (⟨name, span⟩, 1) := by
  obtain ⟨prev, _ | ⟨⟨value, span⟩, rest⟩⟩ := s
  · cases h
  · cases h
    exact ⟨span, rfl⟩

/-- Behind an opening parenthesis stands what an expression starts with. -/
theorem paren_grouped (n : Nat) (prev : Option Span) {rest}
    (h : startsNothing (Stream.peek ⟨some start, rest⟩) = false ∨
      Stream.peek ⟨some start, rest⟩ = .op "-" ∧
        Stream.peekAt ⟨some start, rest⟩ 1 ≠ .punct .rparen) :
    paren (n + 1) ⟨prev, ⟨.punct .lparen, start⟩ :: rest⟩ = grouped n start ⟨some start, rest⟩ := by
  have hopen : expect (.punct .lparen) ⟨prev, ⟨.punct .lparen, start⟩ :: rest⟩ =
      .done start ⟨some start, rest⟩ := by
    unfold expect
    rw [run_bind (peek_run _)]
    rfl
  rw [paren, run_bind hopen, run_bind (peek_run _)]
  rcases h with h | ⟨hminus, hne⟩
  · rw [if_neg (fun hclose => by rw [hclose] at h; cases h),
      run_bind (look_operator (operator?_eq_none h))]
  · obtain ⟨span, hop⟩ := operator?_of_op hminus
    rw [if_neg (fun hclose => by rw [hclose] at hminus; cases hminus),
      run_bind (look_operator hop)]
    simp only
    rw [run_bind (look_peekAt rfl), if_neg hne, if_pos trivial]

/-- An expression in parentheses is read up to the closing one, whatever follows. -/
theorem paren_settles {n inner close last} (hclose : close.value = .punct .rparen)
    (h : expr n ⟨some start, inner ++ [close]⟩ = .done e ⟨last, [close]⟩) (prev : Option Span)
    (rest : List (Located Token)) :
    Settles paren ⟨prev, ⟨.punct .lparen, start⟩ :: (inner ++ close :: rest)⟩
      (.done e ⟨some close.span, rest⟩) := by
  have hextend : View.exact.extend rest ⟨some start, inner ++ [close]⟩ =
      ⟨some start, inner ++ close :: rest⟩ := by
    rw [View.extend_exact, List.append_assoc]
    rfl
  have hinside : Inside rest ⟨some start, inner ++ [close]⟩ := .inr (by simp [hclose])
  have hread : Settles expr ⟨some start, inner ++ close :: rest⟩
      (.done e ⟨last, close :: rest⟩) := by
    refine ⟨n, fun m hm => ?_⟩
    have hanswers : Answers View.exact rest False id ⟨some start, inner ++ [close]⟩ _ _ :=
      (FollowsGrammar.all hm nofun).expr _
    rw [hextend, h] at hanswers
    cases hanswers with
    | done _ hdone =>
      rw [hdone (.inr (congrArg some hclose)), View.extend_exact]
      rfl
  have hgrouped : Settles (fun m => grouped m start) ⟨some start, inner ++ close :: rest⟩
      (.done e ⟨some close.span, rest⟩) := by
    refine .succ (.bind hread (.always fun m => ?_))
    obtain ⟨value, span⟩ := close
    cases hclose
    rfl
  have hstart := expr_start h
  refine .succ (hgrouped.congr fun m => paren_grouped m prev ?_)
  rw [← hextend, hinside.peek]
  rcases hstart with hstart | ⟨hminus, hne⟩
  · exact .inl hstart
  · refine .inr ⟨hminus, ?_⟩
    rw [hinside.peekAt_one (by rw [hminus]; nofun)]
    exact hne

theorem AtomText.settles (h : AtomText tokens e) (prev : Option Span)
    (rest : List (Located Token)) :
    ∃ last, Settles atom ⟨prev, tokens ++ rest⟩ (.done e ⟨last, rest⟩) := by
  cases h with
  | var | con | int | str => exact ⟨_, .succ (.always fun _ => rfl)⟩
  | @paren _ start inner close _ _ hclose h =>
    refine ⟨some close.span, .succ ((paren_settles hclose h prev rest).congr fun m => ?_)⟩
    rw [List.cons_append, List.append_assoc]
    rfl

/-! ## Applications -/

theorem args_atom (n : Nat) (func : Expr) (h : startsAtom s.peek) :
    args (n + 1) func s =
      (atom n >>= fun arg => args n (.app func arg (func.span.merge arg.span))) s := by
  rw [args, run_bind (peek_run s), if_pos h]

theorem args_end (n : Nat) (func : Expr) (h : startsAtom s.peek = false) :
    args (n + 1) func s = .done func s := by
  rw [args, run_bind (peek_run s), h]
  rfl

/-- The tokens of an application of atoms, and the expression that they make up. -/
inductive OperandText : List (Located Token) → Expr → Prop
  | atom {tokens : List (Located Token)} {e : Expr} (h : AtomText tokens e) : OperandText tokens e
  | app {tokens tokens' func arg} (hfunc : OperandText tokens func) (harg : AtomText tokens' arg) :
      OperandText (tokens ++ tokens') (.app func arg (func.span.merge arg.span))

namespace OperandText

variable {tokens : List (Located Token)} {e : Expr}

theorem starts (h : OperandText tokens e) :
    ∃ token rest, tokens = token :: rest ∧ startsAtom token.value := by
  induction h with
  | atom h => exact h.starts
  | @app _ tokens' _ _ _ _ ih =>
    obtain ⟨token, rest, rfl, hstart⟩ := ih
    exact ⟨token, rest ++ tokens', rfl, hstart⟩

/-- After an application, the parser looks for more arguments of it. -/
theorem compound_settles (h : OperandText tokens e) (prev : Option Span)
    (rest : List (Located Token)) : ∃ last, ∀ {answer},
      Settles (fun n => args n e) ⟨last, rest⟩ answer →
        Settles compound ⟨prev, tokens ++ rest⟩ answer := by
  induction h generalizing rest with
  | atom h =>
    obtain ⟨last, hatom⟩ := h.settles prev rest
    obtain ⟨token, rest', rfl, hstart⟩ := h.starts
    refine ⟨last, fun hargs => .succ ?_⟩
    exact (Settles.bind hatom hargs).congr fun n => compound_atom n (.inl hstart)
  | @app tokens tokens' func arg _ harg ih =>
    obtain ⟨last, hfunc⟩ := ih (tokens' ++ rest)
    obtain ⟨last', hatom⟩ := harg.settles last rest
    obtain ⟨token, rest', rfl, hstart⟩ := harg.starts
    refine ⟨last', @fun answer hargs => ?_⟩
    have hmore : Settles (fun n => do
        let arg ← Parser.atom n
        args n (.app func arg (func.span.merge arg.span)))
        ⟨last, (token :: rest') ++ rest⟩ answer := .bind hatom hargs
    rw [List.append_assoc]
    exact hfunc (.succ (hmore.congr fun n => args_atom n func hstart))

/-- An operand is read up to its last token, if no atom follows it. -/
theorem settles (h : OperandText tokens e) (prev : Option Span) {rest}
    (hrest : startsAtom (Stream.peek ⟨none, rest⟩) = false) :
    ∃ last, Settles operand ⟨prev, tokens ++ rest⟩ (.done e ⟨last, rest⟩) := by
  obtain ⟨last, hcompound⟩ := h.compound_settles prev rest
  have hargs : Settles (fun n => args n e) ⟨last, rest⟩ (.done e ⟨last, rest⟩) :=
    .succ (.always fun n => args_end n e hrest)
  obtain ⟨token, rest', rfl, hstart⟩ := h.starts
  refine ⟨last, .succ ((hcompound hargs).congr fun n => ?_)⟩
  rw [operand, run_bind (peek_run _), if_neg]
  intro hminus
  rw [show token.value = .op "-" from hminus] at hstart
  cases hstart

end OperandText

end Lamina.Surface
