import Lamina.Proofs.Surface.Chain
import Lamina.Proofs.Surface.Printing
import Lamina.Proofs.Surface.Unplaced

/-!
# Reading printed trees back

From the tokens of a tree without places the parser makes the tree without places. The proof goes by
the tree: a printed expression is read by the rule for atoms whatever follows it, and by the rules
above that one where a closing token follows.
-/

namespace Lamina.Surface

open Lamina.Surface.Parser

variable {s : Stream} {e first : Expr} {left right : List Token} {params : List Ident}

/-! ## Running parsers on tokens without places -/

/-- Tokens without places. -/
def nowhere (tokens : List Token) : List (Located Token) :=
  tokens.map fun token => ⟨token, .nowhere⟩

/-- The tokens ahead, without places, behind some token. -/
def ahead (tokens : List Token) : Stream := ⟨some .nowhere, nowhere tokens⟩

variable {token next : Token} {tokens rest : List Token}

theorem ahead_append (tokens rest : List Token) :
    ahead (tokens ++ rest) = ⟨some .nowhere, nowhere tokens ++ nowhere rest⟩ := by
  unfold ahead nowhere
  rw [List.map_append]

theorem peek_ahead : peek (ahead (token :: rest)) = .done token (ahead (token :: rest)) := rfl

theorem before_ahead : before (ahead tokens) = .done .nowhere (ahead tokens) := rfl

theorem advance_ahead : advance (ahead (token :: rest)) = .done .nowhere (ahead rest) := rfl

theorem expect_ahead : expect token (ahead (token :: rest)) = .done .nowhere (ahead rest) := by
  unfold expect
  rw [run_bind peek_ahead, if_pos rfl, advance_ahead]

theorem expectName_ahead (name : String) :
    expectName (ahead (.varId name :: rest)) = .done ⟨name, .nowhere⟩ (ahead rest) := rfl

theorem names_ahead (params : List Ident) (h : ∀ name, next ≠ .varId name) :
    names (ahead (paramTokens params ++ next :: rest)) =
      .done (params.map Ident.unplaced) (ahead (next :: rest)) := by
  have hsplit : Stream.splitNames (some .nowhere) (ahead (paramTokens params ++ next :: rest)).rest =
      (params.map Ident.unplaced, ahead (next :: rest)) := by
    induction params with
    | nil =>
      cases next with
      | varId name => exact absurd rfl (h name)
      | _ => rfl
    | cons param params ih =>
      show (_ :: (Stream.splitNames _ (ahead (paramTokens params ++ next :: rest)).rest).1,
        (Stream.splitNames _ (ahead (paramTokens params ++ next :: rest)).rest).2) = _
      rw [ih]
      rfl
  show Outcome.done
    (Stream.splitNames (some .nowhere) (ahead (paramTokens params ++ next :: rest)).rest).1
    (Stream.splitNames (some .nowhere) (ahead (paramTokens params ++ next :: rest)).rest).2 = _
  rw [hsplit]

/-- The tokens that end an expression. -/
def endsExpr : Token → Bool
  | .punct .rparen | .punct .rbracket | .punct .rbrace | .punct .comma | .punct .semi
  | .keyword .thenKw | .keyword .elseKw | .keyword .inKw => true
  | _ => false

theorem startsAtom_of_endsExpr (h : endsExpr token) : startsAtom token = false := by
  cases token with
  | punct mark =>
    cases mark with
    | lparen | lbracket => cases h
    | _ => rfl
  | keyword => rfl
  | _ => cases h

theorem operator?_of_endsExpr (h : endsExpr token) : (ahead (token :: rest)).operator? = none := by
  cases token with
  | punct mark =>
    cases mark with
    | backtick => cases h
    | _ => rfl
  | keyword => rfl
  | _ => cases h

/-! ## Rules one level up -/

theorem operand_of_compound {answer} (h : token ≠ .op "-")
    (hread : Settles compound (ahead (token :: rest)) answer) :
    Settles operand (ahead (token :: rest)) answer := by
  refine .succ (hread.congr fun n => ?_)
  rw [operand, run_bind peek_ahead, if_neg h]

/-- What an operand is read as, a chain is read as where a closing token follows. -/
theorem chain_of_operand {level : Nat} (hend : endsExpr token)
    (h : Settles operand s (.done e (ahead (token :: rest)))) :
    Settles (fun n => chain n level) s (.done e (ahead (token :: rest))) := by
  refine .succ (.bind h (chainAfter_end fun op width hop => ?_))
  rw [operator?_of_endsExpr hend] at hop
  cases hop

theorem expr_of_chain (hend : endsExpr token)
    (h : Settles (fun n => chain n 0) s (.done e (ahead (token :: rest)))) :
    Settles expr s (.done e (ahead (token :: rest))) := by
  have hne : token ≠ .reserved .doubleColon := by
    rintro rfl
    cases hend
  exact .succ (.bind h (.after (eat_other hne) (.always fun _ => rfl)))

theorem expr_of_compound (hdash : token ≠ .op "-") (hend : endsExpr next)
    (h : Settles compound (ahead (token :: tokens)) (.done e (ahead (next :: rest)))) :
    Settles expr (ahead (token :: tokens)) (.done e (ahead (next :: rest))) :=
  expr_of_chain hend (chain_of_operand hend (operand_of_compound hdash h))

/-! ## Atoms -/

/-- Tokens that are read as an atom, whatever follows. -/
structure IsAtom (tokens : List Token) (e : Expr) : Prop where
  start : ∃ token rest, tokens = token :: rest ∧ startsAtom token
  read : ∀ rest, Settles atom (ahead (tokens ++ rest)) (.done e (ahead rest))

/-- Tokens that are read as an expression where a closing token follows. -/
structure IsExpr (tokens : List Token) (e : Expr) : Prop where
  read : ∀ next rest, endsExpr next →
    Settles expr (ahead (tokens ++ next :: rest)) (.done e (ahead (next :: rest)))

theorem ne_of_startsAtom (h : startsAtom token) : token ≠ .op "-" := by
  rintro rfl
  cases h

theorem IsAtom.operand (h : IsAtom tokens e) (hrest : startsAtom (ahead rest).peek = false) :
    Settles Parser.operand (ahead (tokens ++ rest)) (.done e (ahead rest)) := by
  have hread := h.read rest
  obtain ⟨token, more, rfl, hstart⟩ := h.start
  refine operand_of_compound (ne_of_startsAtom hstart) (.succ ?_)
  exact (Settles.bind hread (.succ (.always fun n => args_end n e hrest))).congr fun n =>
    compound_atom n (.inl hstart)

theorem IsAtom.chain (h : IsAtom tokens e) (level : Nat) (hend : endsExpr next)
    (rest : List Token) :
    Settles (fun n => Parser.chain n level) (ahead (tokens ++ next :: rest))
      (.done e (ahead (next :: rest))) :=
  chain_of_operand hend (h.operand (startsAtom_of_endsExpr hend))

theorem IsAtom.isExpr (h : IsAtom tokens e) : IsExpr tokens e :=
  ⟨fun _ rest hend => expr_of_chain hend (h.chain 0 hend rest)⟩

/-! ## Parentheses -/

theorem ahead_inParens (tokens rest : List Token) :
    ahead (inParens tokens ++ rest) = ⟨some .nowhere, ⟨.punct .lparen, .nowhere⟩ ::
      (nowhere tokens ++ ⟨.punct .rparen, .nowhere⟩ :: nowhere rest)⟩ := by
  simp [ahead, nowhere, inParens]

theorem IsAtom.of_paren
    (h : ∀ rest, Settles paren (ahead (inParens tokens ++ rest)) (.done e (ahead rest))) :
    IsAtom (inParens tokens) e :=
  ⟨⟨_, _, rfl, rfl⟩, fun rest => .succ ((h rest).congr fun _ => rfl)⟩

/-- An expression in parentheses is an atom. -/
theorem IsExpr.inParens (h : IsExpr tokens e) : IsAtom (inParens tokens) e := by
  obtain ⟨n, hn⟩ := h.read (.punct .rparen) [] rfl
  have hread := hn n (Nat.le_refl n)
  rw [ahead_append] at hread
  refine .of_paren fun rest => ?_
  rw [ahead_inParens]
  exact paren_settles rfl hread _ _

/-! ## Operators and applications -/

/-- An operator as it is printed. -/
def printedOperator (name : String) : Operator where
  tokens := nowhere (operatorTokens name)
  id := ⟨name, .nowhere⟩
  reads := by
    unfold operatorTokens
    split
    · exact .symbol name .nowhere
    · exact .quoted name .nowhere .nowhere .nowhere

theorem drop_printedOperator (name : String) (rest : List Token) :
    (ahead (operatorTokens name ++ rest)).drop (printedOperator name).tokens.length =
      ahead rest := by
  unfold printedOperator operatorTokens
  split <;> rfl

/-- An operator between atoms, up to a closing token. -/
theorem IsExpr.binOp {lhs rhs : Expr} (name : String) (hl : IsAtom left lhs)
    (hr : IsAtom right rhs) :
    IsExpr (left ++ operatorTokens name ++ right)
      (.binOp ⟨name, .nowhere⟩ lhs rhs (lhs.span.merge rhs.span)) := by
  refine ⟨fun next rest hend => expr_of_chain hend ?_⟩
  have hrhs := hr.chain (Fixity.ofName name).rightLevel hend rest
  have hend' : ∀ op width, (ahead (next :: rest)).operator? ≠ some (op, width) := by
    rw [operator?_of_endsExpr hend]
    exact nofun
  obtain ⟨token, after, rfl, hstart⟩ := hr.start
  have hne : token ≠ .punct .rparen := by
    rintro rfl
    cases hstart
  rw [← drop_printedOperator name] at hrhs
  rw [List.append_assoc, List.append_assoc]
  have hstream := ahead_append (operatorTokens name) (token :: after ++ next :: rest)
  refine .succ (.bind (hl.operand ?_) ?_)
  · rw [hstream]
    exact (printedOperator name).startsAtom_tokens _
  · rw [hstream] at hrhs ⊢
    refine chainAfter_step ((printedOperator name).operator?_tokens _ _) ?_ (Nat.zero_le _) hrhs
      (fun op width h => absurd h (hend' op width))
      (chainAfter_end fun op width h => absurd h (hend' op width))
    rw [(printedOperator name).peekAt_tokens]
    exact hne

/-- A minus before an atom, up to a closing token. -/
theorem IsExpr.neg (h : IsAtom tokens e) :
    IsExpr (.op "-" :: tokens) (.neg e (Span.nowhere.merge e.span)) := by
  refine ⟨fun next rest hend => expr_of_chain hend (chain_of_operand hend ?_)⟩
  have harg := h.chain Fixity.negationLevel hend rest
  have hneg : Settles (fun n => do
      let start ← advance
      let arg ← Parser.chain n Fixity.negationLevel
      return Expr.neg arg (start.merge arg.span)) (ahead (.op "-" :: (tokens ++ next :: rest)))
      (.done (.neg e (Span.nowhere.merge e.span)) (ahead (next :: rest))) :=
    .after advance_ahead (.bind harg (.always fun _ => rfl))
  refine .succ (hneg.congr fun n => ?_)
  rw [List.cons_append, operand, run_bind peek_ahead, if_pos rfl]

/-- A function and its argument, up to a closing token. -/
theorem IsExpr.app {func arg : Expr} (hf : IsAtom left func) (ha : IsAtom right arg) :
    IsExpr (left ++ right) (.app func arg (func.span.merge arg.span)) := by
  refine ⟨fun next rest hend => ?_⟩
  have hfunc := hf.read (right ++ next :: rest)
  have harg := ha.read (next :: rest)
  obtain ⟨token, more, rfl, hstart⟩ := hf.start
  obtain ⟨token', more', rfl, hstart'⟩ := ha.start
  have hargs : Settles (fun n => args n func) (ahead (token' :: more' ++ next :: rest))
      (.done (.app func arg (func.span.merge arg.span)) (ahead (next :: rest))) := by
    refine .succ (Settles.congr ?_ fun n => args_atom n func hstart')
    exact .bind harg (.succ (.always fun n => args_end n _ (startsAtom_of_endsExpr hend)))
  rw [List.append_assoc]
  refine expr_of_compound (ne_of_startsAtom hstart) hend (.succ ?_)
  exact (Settles.bind hfunc hargs).congr fun n => compound_atom n (.inl hstart)

/-! ## Conditionals, functions and blocks -/

theorem skipSemiBefore_ahead (word : Token) (h : token ≠ .punct .semi) :
    skipSemiBefore word (ahead (token :: rest)) = .done () (ahead (token :: rest)) := by
  have hpeek : (ahead (token :: rest)).peek ≠ .punct .semi := h
  unfold skipSemiBefore jump
  simp only
  rw [if_neg fun hboth => hpeek hboth.1]

theorem IsExpr.cond {test yes no t y f} (ht : IsExpr test t) (hy : IsExpr yes y) (hf : IsExpr no f)
    :
    IsExpr (.keyword .ifKw :: test ++ .keyword .thenKw :: yes ++ .keyword .elseKw :: no)
      (.cond t y f (Span.nowhere.merge f.span)) := by
  refine ⟨fun next rest hend => ?_⟩
  simp only [List.append_assoc, List.cons_append]
  refine expr_of_compound (by simp) hend (.succ (.after peek_ahead (.after advance_ahead ?_)))
  refine .bind (ht.read _ _ rfl) (.after (skipSemiBefore_ahead _ (by simp)) ?_)
  refine .after expect_ahead (.bind (hy.read _ _ rfl) ?_)
  refine .after (skipSemiBefore_ahead _ (by simp)) (.after expect_ahead ?_)
  exact .bind (hf.read next rest hend) (.always fun _ => rfl)

theorem lambdaParams_ahead (h : params.isEmpty = false) :
    lambdaParams (ahead (paramTokens params ++ .reserved .arrow :: rest)) =
      .done (params.map Ident.unplaced) (ahead (.reserved .arrow :: rest)) := by
  rw [lambdaParams, run_bind (names_ahead params (by simp)), run_bind peek_ahead, List.isEmpty_map, h]
  rfl

theorem IsExpr.lambda (hparams : params.isEmpty = false) (h : IsExpr tokens e) :
    IsExpr (.reserved .backslash :: paramTokens params ++ .reserved .arrow :: tokens)
      (.lambda (params.map Ident.unplaced) e (Span.nowhere.merge e.span)) := by
  refine ⟨fun next rest hend => ?_⟩
  simp only [List.append_assoc, List.cons_append]
  refine expr_of_compound (by simp) hend (.succ (.after peek_ahead (.after advance_ahead ?_)))
  refine .after (lambdaParams_ahead hparams) (.after expect_ahead ?_)
  exact .bind (h.read next rest hend) (.always fun _ => rfl)

/-- Tokens that are read as a declaration, up to a semicolon or the brace that ends the block. -/
structure IsDecl (tokens : List Token) (decl : Decl) : Prop where
  start : ∃ name rest, tokens = .varId name :: rest
  read : ∀ next rest, next = .punct .semi ∨ next = .punct .rbrace →
    Settles Parser.decl (ahead (tokens ++ next :: rest)) (.done decl (ahead (next :: rest)))

theorem decl_binding (n : Nat) (name : String) (params : List Ident) :
    decl (n + 1) (ahead (.varId name :: (paramTokens params ++ .reserved .equals :: rest))) =
      binding n (ahead (.varId name :: (paramTokens params ++ .reserved .equals :: rest))) := by
  obtain ⟨second, hsecond, hne⟩ : ∃ second,
      (ahead (.varId name :: (paramTokens params ++ .reserved .equals :: rest))).peekAt 1 = second ∧
        ¬ (second = .reserved .doubleColon || second = .punct .comma) := by
    cases params with
    | nil => exact ⟨.reserved .equals, rfl, by decide⟩
    | cons param params => exact ⟨.varId param.name, rfl, by simp⟩
  rw [decl, run_bind peek_ahead]
  simp only [unsupported?]
  rw [run_bind peek_ahead]
  simp only
  rw [run_bind (look_peekAt hsecond), if_neg hne]

theorem bindingParams_ahead (params : List Ident) :
    bindingParams (ahead (paramTokens params ++ .reserved .equals :: rest)) =
      .done (params.map Ident.unplaced) (ahead (.reserved .equals :: rest)) := by
  rw [bindingParams, run_bind (names_ahead params (by simp)), run_bind peek_ahead]
  rfl

theorem whereBlock_ahead (value : Expr) (h : token ≠ .keyword .whereKw) :
    Settles (fun n => whereBlock n value) (ahead (token :: rest))
      (.done value (ahead (token :: rest))) :=
  .succ (.after (eat_other h) (.always fun _ => rfl))

theorem IsDecl.binding (name : String) (params : List Ident) (h : IsExpr tokens e) :
    IsDecl (.varId name :: paramTokens params ++ .reserved .equals :: tokens)
      (if params.isEmpty then .value ⟨name, .nowhere⟩ e .nowhere
        else .function ⟨name, .nowhere⟩ (params.map Ident.unplaced) e .nowhere) := by
  refine ⟨⟨name, _, rfl⟩, fun next rest hnext => ?_⟩
  have hend : endsExpr next ∧ next ≠ .keyword .whereKw := by
    rcases hnext with rfl | rfl
    · exact ⟨rfl, by simp⟩
    · exact ⟨rfl, by simp⟩
  simp only [List.append_assoc, List.cons_append]
  refine .succ (Settles.congr (.succ ?_) fun n => decl_binding n name params)
  refine .after (expectName_ahead name) (.after (bindingParams_ahead params) ?_)
  refine .after expect_ahead (.bind (h.read next rest hend.1) ?_)
  refine .bind (whereBlock_ahead e hend.2) (.after before_ahead ?_)
  rw [List.isEmpty_map]
  exact .always fun _ => rfl

/-! ## Lists of parts -/

theorem decls_semi (n : Nat) :
    decls n (ahead (.punct .semi :: rest)) = decls n (ahead rest) := by
  cases n <;> rfl

theorem decls_done : Settles decls (ahead (.punct .rbrace :: rest)) (.done [] (ahead rest)) :=
  .succ (.after (t := ahead (.punct .rbrace :: rest)) rfl
    (.after (eat_found rfl) (.always fun _ => rfl)))

theorem decls_decl {decl decls} (h : IsDecl tokens decl)
    (hnext : next = .punct .semi ∨ next = .punct .rbrace)
    (hrest : Settles Parser.decls (ahead (next :: rest)) (.done decls s)) :
    Settles Parser.decls (ahead (tokens ++ next :: rest)) (.done (decl :: decls) s) := by
  have hread := h.read next rest hnext
  obtain ⟨name, more, rfl⟩ := h.start
  have hgo : (next = .punct .semi || next = .punct .rbrace) = true := by
    simpa using hnext
  refine .succ (.after (t := ahead (.varId name :: (more ++ next :: rest))) rfl
    (.after (eat_other nofun) (.bind hread (.after peek_ahead ?_))))
  simp only [hgo, ↓reduceIte]
  exact .bind hrest (.always fun _ => rfl)

theorem flatMap_first (mark : Token) (pieces : List (List Token)) (next : Token)
    (rest : List Token) : ∃ first more, pieces.flatMap (mark :: ·) ++ next :: rest = first :: more ∧
      (first = mark ∨ first = next) := by
  cases pieces with
  | nil => exact ⟨next, rest, rfl, .inr rfl⟩
  | cons piece pieces => exact ⟨mark, _, rfl, .inl rfl⟩

theorem decls_more {decls : List Decl} (h : ∀ decl ∈ decls, IsDecl decl.tokens decl.unplaced)
    (rest : List Token) :
    Settles Parser.decls (ahead ((declsTokens decls).flatMap (.punct .semi :: ·) ++
      .punct .rbrace :: rest)) (.done (unplacedDecls decls) (ahead rest)) := by
  induction decls with
  | nil => exact decls_done
  | cons decl decls ih =>
    obtain ⟨hdecl, hdecls⟩ := List.forall_mem_cons.mp h
    have hmore := ih hdecls
    obtain ⟨first, more, hfirst, hmark⟩ := flatMap_first (.punct .semi) (declsTokens decls)
      (.punct .rbrace) rest
    simp only [declsTokens, List.flatMap_cons, List.append_assoc, List.cons_append]
    rw [hfirst] at hmore ⊢
    exact (decls_decl hdecl hmark hmore).congr decls_semi

/-- A block of printed declarations is read as these. -/
theorem block_inBraces {decls : List Decl} (h : ∀ decl ∈ decls, IsDecl decl.tokens decl.unplaced)
    (rest : List Token) :
    Settles block (ahead (inBraces (declsTokens decls) ++ rest))
      (.done (unplacedDecls decls) (ahead rest)) := by
  unfold inBraces
  rw [List.cons_append, List.append_assoc, List.singleton_append]
  refine .succ (.after expect_ahead ?_)
  cases decls with
  | nil => exact decls_done
  | cons decl decls =>
    obtain ⟨hdecl, hdecls⟩ := List.forall_mem_cons.mp h
    have hmore := decls_more hdecls rest
    obtain ⟨first, more, hfirst, hmark⟩ := flatMap_first (.punct .semi) (declsTokens decls)
      (.punct .rbrace) rest
    rw [declsTokens, intercalate_cons, List.append_assoc]
    rw [hfirst] at hmore ⊢
    exact decls_decl hdecl hmark hmore

theorem IsExpr.letIn {decls : List Decl} (hdecls : ∀ decl ∈ decls, IsDecl decl.tokens decl.unplaced)
    (h : IsExpr tokens e) :
    IsExpr (.keyword .letKw :: inBraces (declsTokens decls) ++ .keyword .inKw :: tokens)
      (.letIn (unplacedDecls decls) e (Span.nowhere.merge e.span)) := by
  refine ⟨fun next rest hend => ?_⟩
  simp only [List.append_assoc, List.cons_append]
  refine expr_of_compound (by simp) hend (.succ (.after peek_ahead (.after advance_ahead ?_)))
  refine .bind (block_inBraces hdecls _) (.after expect_ahead ?_)
  exact .bind (h.read next rest hend) (.always fun _ => rfl)

theorem moreElements_read {elems : List Expr} (h : ∀ elem ∈ elems, IsExpr elem.tokens elem.unplaced)
    (hend : endsExpr next) (hcomma : next ≠ .punct .comma) (rest : List Token) :
    Settles moreElements
      (ahead ((exprsTokens elems).flatMap (.punct .comma :: ·) ++ next :: rest))
      (.done (unplacedExprs elems) (ahead (next :: rest))) := by
  induction elems with
  | nil => exact .succ (.after (eat_other hcomma) (.always fun _ => rfl))
  | cons elem elems ih =>
    obtain ⟨helem, helems⟩ := List.forall_mem_cons.mp h
    have hmore := ih helems
    obtain ⟨first, more, hfirst, hmark⟩ := flatMap_first (.punct .comma) (exprsTokens elems) next
      rest
    have hends : endsExpr first := by
      rcases hmark with rfl | rfl
      · rfl
      · exact hend
    simp only [exprsTokens, List.flatMap_cons, List.append_assoc, List.cons_append]
    rw [hfirst] at hmore ⊢
    refine .succ (.after (eat_found rfl) (.succ (.bind (helem.read first more hends) ?_)))
    exact .bind hmore (.always fun _ => rfl)

theorem exprsTokens_commas (elem : Expr) (elems : List Expr) :
    commas (exprsTokens (elem :: elems)) =
      elem.tokens ++ (exprsTokens elems).flatMap (.punct .comma :: ·) :=
  intercalate_cons _ _ _

/-- A list of printed expressions in brackets is an atom. -/
theorem IsAtom.list {elems : List Expr} (h : ∀ elem ∈ elems, IsAtom elem.tokens elem.unplaced) :
    IsAtom (.punct .lbracket :: (commas (exprsTokens elems) ++ [.punct .rbracket]))
      (.list (unplacedExprs elems) .nowhere) := by
  refine ⟨⟨_, _, rfl, rfl⟩, fun rest => ?_⟩
  rw [List.cons_append, List.append_assoc, List.singleton_append]
  cases elems with
  | nil => exact .succ (.always fun _ => rfl)
  | cons elem elems =>
    obtain ⟨helem, helems⟩ := List.forall_mem_cons.mp h
    have hmore := moreElements_read (fun elem helem => (helems elem helem).isExpr) rfl
      (show Token.punct .rbracket ≠ .punct .comma by decide) rest
    rw [exprsTokens_commas, List.append_assoc]
    obtain ⟨first, more, hfirst, hmark⟩ := flatMap_first (.punct .comma) (exprsTokens elems)
      (.punct .rbracket) rest
    have hends : endsExpr first := by rcases hmark with rfl | rfl <;> rfl
    have hread := helem.isExpr.read first more hends
    obtain ⟨token, after, htokens, hstart⟩ := helem.start
    have hne : token ≠ .punct .rbracket := by
      rintro rfl
      cases hstart
    rw [hfirst] at hmore ⊢
    rw [htokens, List.cons_append] at hread ⊢
    refine .succ (.after peek_ahead (.after advance_ahead (.after peek_ahead ?_)))
    simp only [hne, ↓reduceIte]
    exact .bind (.succ (.bind hread (.bind hmore (.always fun _ => rfl))))
      (.after expect_ahead (.always fun _ => rfl))

/-- A tuple of at least two printed expressions is an atom. -/
theorem IsAtom.tuple {elems : List Expr}
    (h : ∀ elem ∈ first :: elems, IsAtom elem.tokens elem.unplaced) (hne : elems ≠ []) :
    IsAtom (inParens (commas (exprsTokens (first :: elems))))
      (.tuple (unplacedExprs (first :: elems)) .nowhere) := by
  obtain ⟨hfirst, helems⟩ := List.forall_mem_cons.mp h
  refine .of_paren fun rest => ?_
  have hmore := moreElements_read (fun elem helem => (helems elem helem).isExpr) rfl
    (show Token.punct .rparen ≠ .punct .comma by decide) rest
  obtain ⟨second, elems, rfl⟩ := List.exists_cons_of_ne_nil hne
  have hread := hfirst.isExpr.read (.punct .comma) (second.tokens ++
    ((exprsTokens elems).flatMap (.punct .comma :: ·) ++ .punct .rparen :: rest)) rfl
  rw [exprsTokens_commas]
  simp only [inParens, exprsTokens, List.flatMap_cons, List.cons_append, List.append_assoc,
    List.nil_append] at hmore hread ⊢
  obtain ⟨token, after, htokens, hstart⟩ := hfirst.start
  rw [htokens] at hread ⊢
  refine .succ (Settles.congr (.succ ?_) fun n => paren_grouped n _ (.inl ?_))
  · refine .bind hread (.after (look_operator rfl) (.after peek_ahead (.bind hmore ?_)))
    exact .after expect_ahead (.always fun _ => rfl)
  · exact startsNothing_of_startsAtom hstart

/-! ## Trees -/

theorem IsAtom.word (hstart : startsAtom token)
    (h : ∀ n rest, atom (n + 1) (ahead (token :: rest)) = .done e (ahead rest)) :
    IsAtom [token] e :=
  ⟨⟨token, [], rfl, hstart⟩, fun rest => .succ (.always fun n => h n rest)⟩

/-- The name of an operator in parentheses is an atom. -/
theorem IsAtom.operatorName (name : String) :
    IsAtom (inParens [.op name]) (.var ⟨name, .nowhere⟩) :=
  .of_paren fun _ => .succ (.always fun _ => rfl)

theorem IsAtom.unit : IsAtom (inParens []) (.con ⟨"()", .nowhere⟩) :=
  .of_paren fun _ => .succ (.always fun _ => rfl)

mutual

theorem Expr.isAtom_tokens (e : Expr) (h : e.isPrintable) : IsAtom e.tokens e.unplaced := by
  cases e with
  | var id =>
    unfold Expr.tokens
    split
    · exact .operatorName id.name
    · exact .word rfl fun _ _ => rfl
  | con id =>
    unfold Expr.tokens
    split
    · rename_i hunit
      unfold Expr.unplaced Ident.unplaced
      rw [hunit]
      exact .unit
    · exact .word rfl fun _ _ => rfl
  | lit value span =>
    cases value with
    | int value => exact .word rfl fun _ _ => rfl
    | str text => exact .word rfl fun _ _ => rfl
  | binOp op lhs rhs span =>
    simp only [Expr.isPrintable, Bool.and_eq_true] at h
    have hread := IsExpr.binOp op.name (lhs.isAtom_tokens h.1.2) (rhs.isAtom_tokens h.2)
    rw [lhs.span_unplaced, rhs.span_unplaced] at hread
    exact hread.inParens
  | neg arg span =>
    have hread := IsExpr.neg (arg.isAtom_tokens h)
    rw [arg.span_unplaced] at hread
    exact hread.inParens
  | app func arg span =>
    simp only [Expr.isPrintable, Bool.and_eq_true] at h
    have hread := IsExpr.app (func.isAtom_tokens h.1) (arg.isAtom_tokens h.2)
    rw [func.span_unplaced, arg.span_unplaced] at hread
    exact hread.inParens
  | cond test onTrue onFalse span =>
    simp only [Expr.isPrintable, Bool.and_eq_true] at h
    have hread := IsExpr.cond (test.isAtom_tokens h.1.1).isExpr (onTrue.isAtom_tokens h.1.2).isExpr
      (onFalse.isAtom_tokens h.2).isExpr
    rw [onFalse.span_unplaced] at hread
    exact hread.inParens
  | letIn decls body span =>
    simp only [Expr.isPrintable, Bool.and_eq_true] at h
    have hread := IsExpr.letIn (isDecl_tokens decls h.1) (body.isAtom_tokens h.2).isExpr
    rw [body.span_unplaced] at hread
    exact hread.inParens
  | lambda params body span =>
    simp only [Expr.isPrintable, Bool.and_eq_true, Bool.not_eq_true'] at h
    have hread := IsExpr.lambda h.1.1 (body.isAtom_tokens h.2).isExpr
    rw [body.span_unplaced] at hread
    exact hread.inParens
  | tuple elems span =>
    simp only [Expr.isPrintable, Bool.and_eq_true, decide_eq_true_eq] at h
    have helems := isAtom_tokens elems h.2
    match elems with
    | first :: second :: rest => exact .tuple helems (by simp)
    | [_] => simp at h
    | [] => simp at h
  | list elems span => exact .list (isAtom_tokens elems h)
  | caseOf scrutinee span => cases h
  | doBlock span => cases h

theorem Decl.isDecl_tokens (decl : Decl) (h : decl.isPrintable) :
    IsDecl decl.tokens decl.unplaced := by
  cases decl with
  | function name params body span =>
    simp only [Decl.isPrintable, Bool.and_eq_true, Bool.not_eq_true'] at h
    have hread := IsDecl.binding name.name params (body.isAtom_tokens h.2).isExpr
    rw [h.1.1.2] at hread
    exact hread
  | value name body span =>
    simp only [Decl.isPrintable, Bool.and_eq_true] at h
    exact IsDecl.binding name.name [] (body.isAtom_tokens h.2).isExpr
  | signature names span => cases h
  | unsupported what span => cases h

theorem isAtom_tokens (elems : List Expr) (h : printableExprs elems) :
    ∀ elem ∈ elems, IsAtom elem.tokens elem.unplaced := by
  cases elems with
  | nil => exact nofun
  | cons elem rest =>
    simp only [printableExprs, Bool.and_eq_true] at h
    exact List.forall_mem_cons.mpr ⟨elem.isAtom_tokens h.1, isAtom_tokens rest h.2⟩

theorem isDecl_tokens (decls : List Decl) (h : printableDecls decls) :
    ∀ decl ∈ decls, IsDecl decl.tokens decl.unplaced := by
  cases decls with
  | nil => exact nofun
  | cons decl rest =>
    simp only [printableDecls, Bool.and_eq_true] at h
    exact List.forall_mem_cons.mpr ⟨decl.isDecl_tokens h.1, isDecl_tokens rest h.2⟩

end

/-! ## Modules -/

/-- Joins the parts of a name with dots. -/
def joinDots (first : String) (parts : List String) : String :=
  parts.foldl (fun name part => name ++ "." ++ part) first

theorem toList_joinDots (first : String) (parts : List String) :
    (joinDots first parts).toList = first.toList ++ parts.flatMap (fun part => '.' :: part.toList) := by
  unfold joinDots
  induction parts generalizing first with
  | nil => simp
  | cons part parts ih =>
    rw [List.foldl_cons, ih]
    simp

theorem joinDots_dottedParts (name : String) : ∃ first parts,
    dottedParts name = first :: parts ∧ joinDots first parts = name := by
  have hname : ['.'].intercalate (name.toList.splitOn '.') = name.toList :=
    List.intercalate_splitOn '.'
  unfold dottedParts
  cases hparts : name.toList.splitOn '.' with
  | nil => exact absurd hparts (List.splitOn_ne_nil _ _)
  | cons first parts =>
    refine ⟨String.ofList first, parts.map String.ofList, rfl, ?_⟩
    rw [hparts, intercalate_cons] at hname
    apply String.toList_injective
    rw [toList_joinDots, ← hname, List.flatMap_map]
    simp

theorem splitDotted_ahead (first : String) (parts : List String) (rest : List Token) :
    splitDotted ⟨first, .nowhere⟩ (some .nowhere)
        (ahead ((parts.map fun part => [Token.conId part]).flatMap (.op "." :: ·) ++
          .keyword .whereKw :: rest)).rest =
      (⟨joinDots first parts, .nowhere⟩, ahead (.keyword .whereKw :: rest)) := by
  induction parts generalizing first with
  | nil => rfl
  | cons part parts ih => exact ih (first ++ "." ++ part)

theorem moduleName_ahead (name : String) :
    moduleName (ahead ([Token.op "."].intercalate ((dottedParts name).map fun part =>
        [.conId part]) ++ .keyword .whereKw :: rest)) =
      .done ⟨name, .nowhere⟩ (ahead (.keyword .whereKw :: rest)) := by
  obtain ⟨first, parts, hparts, hjoin⟩ := joinDots_dottedParts name
  have hsplit := splitDotted_ahead first parts rest
  rw [hjoin] at hsplit
  rw [hparts, List.map_cons, intercalate_cons, List.append_assoc, List.singleton_append, moduleName,
    run_bind peek_ahead]
  refine (run_bind advance_ahead).trans ?_
  exact congrArg (fun found : Ident × Stream => Outcome.done found.1 found.2) hsplit

/-- All the tokens, without places. -/
def fromStart (tokens : List Token) : Stream := .ofTokens (nowhere tokens)

theorem here_fromStart (tokens : List Token) :
    here (fromStart tokens) = .done .nowhere (fromStart tokens) := by
  cases tokens <;> rfl

theorem header_fromStart (name : Option Ident) (rest : List Token) :
    ∃ s, header (fromStart (headerTokens name ++ .punct .lbrace :: rest)) =
        .done (name.map Ident.unplaced, []) s ∧
      expect (.punct .lbrace) s = .done .nowhere (ahead rest) := by
  cases name with
  | none => exact ⟨_, rfl, rfl⟩
  | some id =>
    refine ⟨ahead (.punct .lbrace :: rest), ?_, expect_ahead⟩
    have heat (tokens : List Token) : eat (.keyword .moduleKw)
        (fromStart (.keyword .moduleKw :: tokens)) = .done true (ahead tokens) := rfl
    unfold headerTokens
    rw [List.cons_append, List.append_assoc, List.singleton_append, header, run_bind (heat _)]
    simp only [↓reduceIte]
    rw [run_bind (moduleName_ahead id.name), run_bind peek_ahead, if_neg (by simp)]
    have hpure : (Parser.pure [] : Parser (List Ident)) (ahead (.keyword .whereKw ::
        .punct .lbrace :: rest)) = .done [] (ahead (.keyword .whereKw :: .punct .lbrace :: rest)) := rfl
    refine (run_bind hpure).trans ?_
    rw [run_bind expect_ahead]
    rfl

theorem wholeModule_fromStart (m : Module) (h : m.isPrintable) :
    Settles wholeModule (fromStart (m.tokens ++ [.eof])) (.done m.unplaced (ahead [.eof])) := by
  simp only [Module.isPrintable, Bool.and_eq_true, List.isEmpty_iff] at h
  obtain ⟨⟨-, hexports⟩, hdecls⟩ := h
  have hblock := block_inBraces (isDecl_tokens m.decls hdecls) [.eof]
  obtain ⟨s, hheader, hbrace⟩ := header_fromStart m.name
    ([.punct .semi].intercalate (declsTokens m.decls) ++ [.punct .rbrace] ++ [.eof])
  have hsame (n : Nat) :
      block n s = block n (ahead (inBraces (declsTokens m.decls) ++ [.eof])) := by
    unfold inBraces
    cases n with
    | zero => rfl
    | succ n => rw [block, run_bind hbrace, List.cons_append, run_bind expect_ahead]
  have htokens : m.tokens ++ [.eof] = headerTokens m.name ++ .punct .lbrace ::
      ([.punct .semi].intercalate (declsTokens m.decls) ++ [.punct .rbrace] ++ [.eof]) := by
    simp [Module.tokens, inBraces]
  rw [← htokens] at hheader
  refine .after (here_fromStart _) (.after hheader (.bind (hblock.congr hsame) ?_))
  refine .after peek_ahead (.after before_ahead ?_)
  rw [Module.unplaced, hexports]
  exact .always fun _ => rfl

/-- From the tokens of a module without places the parser makes the module without places. -/
theorem parseModule_tokens (m : Module) (h : m.isPrintable) :
    parseModule ((m.tokens ++ [Token.eof]).map fun token => ⟨token, .nowhere⟩) =
      .ok m.unplaced :=
  parseModule_of_settles (wholeModule_fromStart m h)

end Lamina.Surface
