import Lamina.Proofs.Surface.Operand

/-!
# The parser ends, and stays within its tokens

Whatever the tokens are, the bound on nesting that the parser is given is never reached, and a larger
one changes nothing. Every rule goes forward and stops at the end of the tokens at the latest; every
token that is looked at is there. The parts that are skipped have, at every token on the way, no more
brackets closed than were opened.
-/

namespace Lamina.Surface

open Lamina.Surface.Parser

variable {tokens : List (Located Token)} {n : Nat}

/-! ## Answers -/

/-- A parser that succeeds has read at least `least` tokens, all of them there. -/
def Advances {α : Type} (least : Nat) (p : Parser α) : Prop :=
  ∀ s a s', p s = .done a s' → s.Passes least s'

theorem Spends.advances {α rank least} {P : Stream → Stream → α → Prop} {p}
    (h : ∀ s, Spends False (fun _ => True) n rank least (P s) p s) : Advances least p := by
  intro s a s' hp
  have hspent := h s nofun
  rw [hp] at hspent
  cases hspent with
  | done hpass _ => exact hpass

/-- A parser answers to tokens, with a value behind some of them or with an error. -/
def Answered {α : Type} (tokens : List (Located Token)) (result : Except SyntaxError α)
    (answer : Outcome α) : Prop :=
  (∃ a k, answer = .done a ((Stream.ofTokens tokens).drop k) ∧ 1 ≤ k ∧ k ≤ tokens.length ∧
      result = .ok a) ∨
    ∃ e, answer = .failed e ∧ result = .error e

theorem answered {α : Type} {p : Parser α} (hp : Advances 1 p)
    (h : p (.ofTokens tokens) ≠ .exhausted) :
    Answered tokens (p (.ofTokens tokens)).result (p (.ofTokens tokens)) := by
  cases hanswer : p (.ofTokens tokens) with
  | done a s' =>
    obtain ⟨k, hk, hlength, rfl⟩ := hp _ a s' hanswer
    exact .inl ⟨a, k, rfl, hk, hlength, rfl⟩
  | failed e => exact .inr ⟨e, rfl, rfl⟩
  | exhausted => exact absurd hanswer h

/-! ## Tokens -/

theorem Stream.rest_drop (s : Stream) (k : Nat) : (s.drop k).rest = s.rest.drop k := by
  induction k generalizing s with
  | zero => rfl
  | succ k ih =>
    rw [drop, ih]
    obtain ⟨prev, _ | ⟨token, rest⟩⟩ := s
    · simp [tail]
    · rfl

theorem Stream.before_drop {k : Nat} (s : Stream) (h : k < s.rest.length) :
    (s.drop (k + 1)).before = s.rest[k].span := by
  induction k generalizing s with
  | zero =>
    obtain ⟨prev, _ | ⟨token, rest⟩⟩ := s
    · cases h
    · rfl
  | succ k ih =>
    obtain ⟨prev, _ | ⟨token, rest⟩⟩ := s
    · cases h
    · exact ih ⟨some token.span, rest⟩ (Nat.lt_of_succ_lt_succ h)

/-- The name of an operator is its first token or, between backticks, its second. -/
theorem Stream.operator_token {s : Stream} {op width} (h : s.operator? = some (op, width)) :
    ∃ token, s.rest[width / 2]? = some token ∧ op.span = token.span := by
  unfold operator? at h
  split at h
  · rename_i hrest
    cases h
    exact ⟨_, by rw [hrest]; rfl, rfl⟩
  · rename_i hrest
    cases h
    exact ⟨_, by rw [hrest]; rfl, rfl⟩
  · cases h

/-! ## Open brackets -/

/-- How many more brackets are opened than closed. -/
def level (weight : Token → Int) (tokens : List (Located Token)) : Int :=
  tokens.foldr (fun token total => weight token.value + total) 0

/-- Before every token there are no more brackets closed than opened. -/
def NeverBelow (weight : Token → Int) (passed : List (Located Token)) : Prop :=
  ∀ part, part <+: passed → 0 ≤ level weight part

/-- A scan counts what it passes, and stops before its count gets below zero. -/
theorem scan_level {stops : Nat → Token → Bool} {weight}
    (hstops : ∀ depth token, stops depth token = false → 0 ≤ (depth : Int) + weight token)
    (depth : Nat) (prev : Option Span) (tokens : List (Located Token)) :
    ∃ passed, ∃ last : Nat, tokens = passed ++ (scan stops weight depth prev tokens).rest ∧
      (∀ part, part <+: passed → 0 ≤ depth + level weight part) ∧
      (last : Int) = depth + level weight passed ∧
      ∀ token ∈ (scan stops weight depth prev tokens).rest.head?, stops last token.value := by
  induction tokens generalizing depth prev with
  | nil =>
    refine ⟨[], depth, rfl, fun part hpart => ?_, (Int.add_zero _).symm, nofun⟩
    rw [List.prefix_nil.mp hpart]
    exact Int.natCast_nonneg depth
  | cons token rest ih =>
    rw [scan]
    split
    · rename_i hstop
      refine ⟨[], depth, rfl, fun part hpart => ?_, (Int.add_zero _).symm, ?_⟩
      · rw [List.prefix_nil.mp hpart]
        exact Int.natCast_nonneg depth
      · rintro _ ⟨⟩
        exact hstop
    · rename_i hstop
      have hnext := hstops depth token.value (Bool.eq_false_iff.mpr hstop)
      obtain ⟨passed, last, hrest, hparts, hlast, hhead⟩ :=
        ih (depth + weight token.value).toNat (some token.span)
      rw [Int.toNat_of_nonneg hnext] at hparts hlast
      refine ⟨token :: passed, last, congrArg _ hrest, fun part hpart => ?_, ?_, hhead⟩
      · obtain rfl | ⟨part, rfl, hpart'⟩ := List.prefix_cons_iff.mp hpart
        · exact Int.natCast_nonneg depth
        · have hlevel := hparts part hpart'
          rwa [Int.add_assoc] at hlevel
      · rwa [Int.add_assoc] at hlast

theorem declStops_weight (depth : Nat) (token : Token) (h : declStops depth token = false) :
    0 ≤ (depth : Int) + bracketWeight token := by
  cases token with
  | punct sign => cases sign <;> simp_all [declStops, bracketWeight] <;> omega
  | _ => simp [bracketWeight]

theorem typeStops_weight (depth : Nat) (token : Token) (h : typeStops depth token = false) :
    0 ≤ (depth : Int) + bracketWeight token := by
  cases token with
  | punct sign => cases sign <;> simp_all [typeStops, bracketWeight] <;> omega
  | _ => simp [bracketWeight]

theorem groupStops_weight (opening closing : Punct) (depth : Nat) (token : Token)
    (h : groupStops closing depth token = false) :
    0 ≤ (depth : Int) + pairWeight opening closing token := by
  cases token with
  | punct sign =>
    have hdepth : sign = closing → depth ≠ 0 := by simpa [groupStops] using h
    simp only [pairWeight]
    split
    · omega
    · split
      · rename_i hclosing
        have hpos := hdepth hclosing
        omega
      · omega
  | _ => simp [pairWeight]

/-- Tokens that are passed on the way to the rest. -/
def Passed (weight : Token → Int) (tokens rest : List (Located Token)) : Prop :=
  ∃ passed, tokens = passed ++ rest ∧ NeverBelow weight passed

theorem scan_passed {stops : Nat → Token → Bool} {weight}
    (hstops : ∀ depth token, stops depth token = false → 0 ≤ (depth : Int) + weight token)
    (prev : Option Span) (tokens : List (Located Token)) :
    Passed weight tokens (scan stops weight 0 prev tokens).rest := by
  obtain ⟨passed, _, htokens, hparts, -⟩ := scan_level hstops 0 prev tokens
  refine ⟨passed, htokens, fun part hpart => ?_⟩
  have hlevel := hparts part hpart
  rwa [Int.natCast_zero, Int.zero_add] at hlevel

/-- What becomes of a group whose opening bracket is read: it is passed with the bracket that closes
it, or the end of the input comes first. -/
def GroupPassed {α : Type} (opening closing : Punct) (tokens : List (Located Token))
    (answer : Outcome α) : Prop :=
  ∃ passed rest, tokens = passed ++ rest ∧ NeverBelow (pairWeight opening closing) passed ∧
    ((∃ close more a, rest = close :: more ∧ close.value = .punct closing ∧
        level (pairWeight opening closing) passed = 0 ∧ answer = .done a ⟨some close.span, more⟩) ∨
      (∀ token ∈ rest.head?, token.value = .eof) ∧ ∃ e, answer = .failed e)

theorem groupPassed {α opening closing} {answer : Outcome α} (prev : Option Span)
    (h : let s := scan (groupStops closing) (pairWeight opening closing) 0 prev tokens
      if s.peek = .punct closing then ∃ a, answer = .done a s.tail else ∃ e, answer = .failed e) :
    GroupPassed opening closing tokens answer := by
  obtain ⟨passed, last, htokens, hparts, hlast, hhead⟩ :=
    scan_level (groupStops_weight opening closing) 0 prev tokens
  simp only [Int.natCast_zero, Int.zero_add] at hparts hlast
  refine ⟨passed, _, htokens, hparts, ?_⟩
  generalize scan _ _ 0 prev tokens = s at h hhead
  obtain ⟨prev', _ | ⟨token, more⟩⟩ := s
  · exact .inr ⟨nofun, h⟩
  have hstop := hhead token rfl
  dsimp only at h
  split at h
  · rename_i hclose
    obtain ⟨a, ha⟩ := h
    have hzero : last = 0 := by
      rw [show token.value = .punct closing from hclose] at hstop
      simpa [groupStops] using hstop
    exact .inl ⟨token, more, a, rfl, hclose, by rw [← hlast, hzero]; rfl, ha⟩
  · rename_i hclose
    refine .inr ⟨?_, h⟩
    rintro _ ⟨⟩
    -- of the tokens that a group can stop at, this is not the bracket
    have hne : token.value ≠ .punct closing := hclose
    revert hstop hne
    cases token.value with
    | eof => exact fun _ _ => rfl
    | punct sign => simp_all [groupStops]
    | _ =>
      intro hstop
      cases hstop

section

variable {α : Type} {answer : Outcome α} {c : α → α}

theorem Outcome.done_of_change {a s} (h : answer.change c = .done a s) :
    ∃ a, answer = .done a s := by
  cases answer with
  | done a' s' =>
    cases h
    exact ⟨a', rfl⟩
  | failed | exhausted => cases h

theorem Outcome.failed_of_change {e} (h : answer.change c = .failed e) : answer = .failed e := by
  cases answer with
  | failed => exact h
  | done | exhausted => cases h

end

/-- Which names an export list has does not matter to where it ends. -/
theorem splitExports_eq_scan (inner : Nat) (prev : Option Span) (tokens : List (Located Token)) :
    (splitExports inner prev tokens).change (fun _ => []) =
      let s := scan (groupStops .rparen) (pairWeight .lparen .rparen) inner prev tokens
      if s.peek = .punct .rparen then .done [] s.tail else unexpected "export list" s := by
  induction tokens generalizing inner prev with
  | nil => rfl
  | cons token rest ih =>
    obtain ⟨value, span⟩ := token
    rw [splitExports, scan]
    cases value with
    | eof => rfl
    | varId name | conId name =>
      have hrest := ih inner (some span)
      simp only [groupStops, pairWeight, Int.add_zero, Int.toNat_natCast, Bool.false_eq_true,
        if_false]
      rw [← hrest]
      cases splitExports inner (some span) rest <;> rfl
    | punct sign =>
      cases sign with
      | rparen =>
        by_cases hinner : inner = 0
        · subst hinner
          rfl
        · simp [groupStops, pairWeight, toNat_pred, hinner, ih]
      | _ => simp [groupStops, pairWeight, ih]
    | _ => simp [groupStops, pairWeight, ih]

theorem dropBlock_passed (prev : Option Span) (tokens : List (Located Token)) :
    GroupPassed .lbrace .rbrace tokens (dropBlock 0 prev tokens) := by
  refine groupPassed prev ?_
  rw [dropBlock_eq_scan]
  dsimp only
  split
  · exact ⟨(), rfl⟩
  · exact unexpected_failed _ _

theorem splitExports_passed (prev : Option Span) (tokens : List (Located Token)) :
    GroupPassed .lparen .rparen tokens (splitExports 0 prev tokens) := by
  have hends := splitExports_eq_scan 0 prev tokens
  refine groupPassed prev ?_
  dsimp only at hends ⊢
  split
  · rename_i hclose
    rw [if_pos hclose] at hends
    exact Outcome.done_of_change hends
  · rename_i hclose
    rw [if_neg hclose] at hends
    obtain ⟨e, he⟩ := unexpected_failed "export list" _
    exact ⟨e, Outcome.failed_of_change (hends.trans he)⟩

/-! ## All together -/

/-- Every rule of the grammar goes forward, and most of them read at least one token. -/
structure RulesAdvance (n : Nat) : Prop where
  header : Advances 0 header
  block : Advances 1 (block n)
  decls : Advances 1 (decls n)
  decl : Advances 1 (decl n)
  binding : Advances 1 (binding n)
  whereBlock : ∀ value, Advances 0 (whereBlock n value)
  expr : Advances 1 (expr n)
  chain : ∀ level, Advances 1 (chain n level)
  chainAfter : ∀ level lhs, Advances 0 (chainAfter n level lhs)
  operand : Advances 1 (operand n)
  compound : Advances 1 (compound n)
  args : ∀ func, Advances 0 (args n func)
  atom : Advances 1 (atom n)
  paren : Advances 1 (paren n)
  grouped : ∀ start, Advances 1 (grouped n start)
  elements : Advances 1 (elements n)
  moreElements : Advances 0 (moreElements n)

theorem rulesAdvance (n : Nat) : RulesAdvance n := by
  have h : SpendsGrammar False (fun _ => True) n := .all n
  exact {
    header := Spends.advances fun s => (.header : Spends _ _ n 0 0 _ _ s)
    block := Spends.advances h.block
    decls := Spends.advances h.decls
    decl := Spends.advances h.decl
    binding := Spends.advances h.binding
    whereBlock := fun _ => Spends.advances fun _ => @h.whereBlock 0 _ _ nofun
    expr := Spends.advances h.expr
    chain := fun level => Spends.advances (h.chain level)
    chainAfter := fun level _ => Spends.advances fun _ => @h.chainAfter level 0 _ _ nofun
    operand := Spends.advances h.operand
    compound := Spends.advances h.compound
    args := fun _ => Spends.advances fun _ => @h.args 0 _ _ nofun
    atom := Spends.advances h.atom
    paren := Spends.advances h.paren
    grouped := fun _ => Spends.advances fun _ => @h.grouped 0 _ _ nofun
    elements := Spends.advances fun _ => @h.elements 0 _ nofun
    moreElements := Spends.advances h.moreElements }

/-- What is looked at from a place in the tokens is there: the token before, the name of an operator,
and any other token, or else the end of the input. -/
structure LooksInside (tokens : List (Located Token)) (k : Nat) : Prop where
  ahead : ∀ i, ((Stream.ofTokens tokens).drop k).peekAt i =
    (tokens[k + i]?.map Located.value).getD .eof
  before : 0 < k → ∃ token, tokens[k - 1]? = some token ∧
    ((Stream.ofTokens tokens).drop k).before = token.span
  operator : ∀ op width, ((Stream.ofTokens tokens).drop k).operator? = some (op, width) →
    k + width ≤ tokens.length ∧
      ∃ token, tokens[k + width / 2]? = some token ∧ op.span = token.span

theorem looksInside {k : Nat} (hk : k ≤ tokens.length) : LooksInside tokens k where
  ahead i := by
    unfold Stream.peekAt
    rw [Stream.rest_drop, Stream.ofTokens, List.getElem?_drop]
    cases tokens[k + i]? <;> rfl
  before hpos := by
    obtain ⟨k, rfl⟩ : ∃ j, k = j + 1 := ⟨k - 1, by omega⟩
    exact ⟨tokens[k], List.getElem?_eq_getElem hk, Stream.before_drop (.ofTokens tokens) hk⟩
  operator op width hop := by
    have hwidth := (Stream.width_le hop).2
    obtain ⟨token, htoken, hspan⟩ := Stream.operator_token hop
    rw [Stream.rest_drop, List.length_drop] at hwidth
    rw [Stream.rest_drop, List.getElem?_drop] at htoken
    change width ≤ tokens.length - k at hwidth
    exact ⟨by omega, token, htoken, hspan⟩

/-- **The parser ends, and stays within its tokens.** With the bound on nesting that it is given, and
with any larger one, it answers with a tree behind some of the tokens, at least one, or with an error.
No rule goes back or past the end; an expression, an atom and a declaration have at least one token.
All that is looked at is there. And where tokens are skipped, no bracket is counted as closed that was
not counted as opened. -/
theorem parser_terminates (tokens : List (Located Token)) :
    (∀ n, nestingBound tokens ≤ n →
      Answered tokens (parseModule tokens) (wholeModule n (.ofTokens tokens)) ∧
      Answered tokens (parseExpr tokens) (expr n (.ofTokens tokens))) ∧
    (∀ n, RulesAdvance n) ∧
    (∀ k, k ≤ tokens.length → LooksInside tokens k) ∧
    ∀ prev, Passed bracketWeight tokens (dropDecl 0 prev tokens).rest ∧
      Passed bracketWeight tokens (dropType 0 prev tokens).rest ∧
      GroupPassed .lbrace .rbrace tokens (dropBlock 0 prev tokens) ∧
      GroupPassed .lparen .rparen tokens (splitExports 0 prev tokens) := by
  refine ⟨fun n hn => ⟨?_, ?_⟩, rulesAdvance, fun k hk => looksInside hk, fun prev => ⟨?_, ?_, ?_, ?_⟩⟩
  · rw [wholeModule_eq hn]
    exact answered (Spends.advances (wholeModule_spends _)) (wholeModule_ne_exhausted (Nat.le_refl _))
  · rw [expr_eq hn]
    exact answered (rulesAdvance _).expr (expr_ne_exhausted (Nat.le_refl _))
  · rw [dropDecl_eq_scan]
    exact scan_passed declStops_weight prev tokens
  · rw [dropType_eq_scan]
    exact scan_passed typeStops_weight prev tokens
  · exact dropBlock_passed prev tokens
  · exact splitExports_passed prev tokens

/-- Tokens with the end of the input among them, inside brackets that are not closed. -/
def strayTokens : List (Located Token) :=
  [⟨.punct .lbrace, ⟨0, 1⟩⟩, ⟨.keyword .dataKw, ⟨9, 4⟩⟩, ⟨.punct .backtick, ⟨2, 2⟩⟩,
    ⟨.varId "f", ⟨7, 8⟩⟩, ⟨.punct .backtick, ⟨1, 1⟩⟩, ⟨.punct .lparen, ⟨0, 0⟩⟩, ⟨.eof, ⟨5, 5⟩⟩,
    ⟨.punct .rbrace, ⟨3, 3⟩⟩]

theorem strayTokens_answered :
    parseModule strayTokens = .error (.unexpectedEnd "';' or end of block") ∧
      nestingBound strayTokens ≤ 1000 ∧
      Answered strayTokens (parseModule strayTokens) (wholeModule 1000 (.ofTokens strayTokens)) ∧
      (∃ token, strayTokens[3]? = some token ∧ (⟨7, 8⟩ : Span) = token.span) ∧
      Passed bracketWeight strayTokens (dropDecl 0 none strayTokens).rest := by
  obtain ⟨hanswers, -, hlooks, hskipped⟩ := parser_terminates strayTokens
  have herror : (match parseModule strayTokens with
      | .error e => some e
      | .ok _ => none) = some (.unexpectedEnd "';' or end of block") := by
    decide
  split at herror
  · rename_i e he
    cases herror
    refine ⟨he, by decide, (hanswers 1000 (by decide)).1, ?_, (hskipped none).1⟩
    exact ((hlooks 2 (by decide)).operator ⟨"f", ⟨7, 8⟩⟩ 3 rfl).2
  · cases herror

end Lamina.Surface
