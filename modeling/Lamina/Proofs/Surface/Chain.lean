import Lamina.Proofs.Surface.Operand
import Lamina.Proofs.Surface.Precedence

/-!
# Chains of operators

The parser reads a chain of operands with operators between them as the one tree that the fixities
of the operators allow, or it reports the first operator that makes the chain have none. The proof
follows the tree: what stands in a tree is read up to the end of the tree, and the rule that reads
it goes on behind the tree as if the tree were an operand.
-/

namespace Lamina.Surface

open Lamina.Surface.Parser

variable {s : Stream}

/-! ## Chains -/

/-- An operand as it is written, with the expression that it is. -/
structure Operand where
  tokens : List (Located Token)
  expr : Expr
  reads : OperandText tokens expr

/-- The tokens of an operator: a symbol, or a name in backticks. -/
inductive OperatorText : List (Located Token) → Ident → Prop
  | symbol (name : String) (span : Span) : OperatorText [⟨.op name, span⟩] ⟨name, span⟩
  | quoted (name : String) (before span after : Span) :
      OperatorText [⟨.punct .backtick, before⟩, ⟨.varId name, span⟩, ⟨.punct .backtick, after⟩]
        ⟨name, span⟩

/-- An operator as it is written, with its name. -/
structure Operator where
  tokens : List (Located Token)
  id : Ident
  reads : OperatorText tokens id

namespace Operator

/-- How tightly the operator binds. -/
def fixity (op : Operator) : Fixity := .ofName op.id.name

variable (op : Operator) (prev : Option Span) (rest : List (Located Token))

theorem operator?_tokens :
    Stream.operator? ⟨prev, op.tokens ++ rest⟩ = some (op.id, op.tokens.length) := by
  obtain ⟨tokens, id, reads⟩ := op
  cases reads <;> rfl

theorem peekAt_tokens :
    Stream.peekAt ⟨prev, op.tokens ++ rest⟩ op.tokens.length = Stream.peek ⟨none, rest⟩ := by
  unfold Stream.peekAt
  rw [List.getElem?_append_right (Nat.le_refl _), Nat.sub_self]
  cases rest <;> rfl

theorem drop_tokens :
    ∃ last, Stream.drop ⟨prev, op.tokens ++ rest⟩ op.tokens.length = ⟨last, rest⟩ := by
  obtain ⟨tokens, id, reads⟩ := op
  cases reads <;> exact ⟨_, rfl⟩

/-- A tree that ends before the operator ends before its tokens. -/
theorem ends_before {t : OpTree Operator Operand} (h : t.Ends fixity op.fixity) :
    ∀ next width, Stream.operator? ⟨none, op.tokens ++ rest⟩ = some (next, width) →
      t.Ends fixity (.ofName next.name) := by
  intro next width hnext
  cases (op.operator?_tokens none rest).symm.trans hnext
  exact h

theorem startsAtom_tokens : startsAtom (Stream.peek ⟨none, op.tokens ++ rest⟩) = false := by
  obtain ⟨tokens, id, reads⟩ := op
  cases reads <;> rfl

end Operator

/-- The tokens of operators, each with the operand behind it. -/
def chainText : List (Operator × Operand) → List (Located Token)
  | [] => []
  | (op, a) :: rest => op.tokens ++ (a.tokens ++ chainText rest)

theorem chainText_append (front back : List (Operator × Operand)) :
    chainText (front ++ back) = chainText front ++ chainText back := by
  induction front with
  | nil => rfl
  | cons next front ih => simp [chainText, ih]

namespace OpTree

/-- The tokens of a tree from left to right. -/
def tokens (t : OpTree Operator Operand) : List (Located Token) :=
  t.first.tokens ++ chainText t.rest

/-- The expression that a tree is. -/
def expr : OpTree Operator Operand → Expr
  | leaf a => a.expr
  | node op left right =>
    .binOp op.id left.expr right.expr (left.expr.span.merge right.expr.span)

theorem tokens_node (op : Operator) (left right : OpTree Operator Operand) :
    (node op left right).tokens = left.tokens ++ (op.tokens ++ right.tokens) := by
  simp [tokens, first, rest, chainText_append, chainText]

theorem starts (t : OpTree Operator Operand) (more : List (Located Token)) :
    Stream.peek ⟨none, t.tokens ++ more⟩ ≠ .punct .rparen := by
  obtain ⟨token, rest, htokens, hstart⟩ := t.first.reads.starts
  unfold tokens
  rw [htokens]
  intro hclose
  rw [show token.value = .punct .rparen from hclose] at hstart
  cases hstart

end OpTree

/-! ## One operator -/

section

variable {s s' : Stream} {level : Nat} {lhs : Expr}

/-- A chain ends before an operator of a lower level. -/
theorem chainAfter_end
    (h : ∀ op width, s.operator? = some (op, width) → (Fixity.ofName op.name).level < level) :
    Settles (fun n => chainAfter n level lhs) s (.done lhs s) := by
  refine .succ (.always fun n => ?_)
  rw [chainAfter, run_bind (look_operator rfl)]
  cases hop : s.operator? with
  | none => rfl
  | some found =>
    obtain ⟨op, width⟩ := found
    simp only
    rw [run_bind (look_peekAt rfl), if_pos (by simp [h op width hop])]
    rfl

variable {op : Ident} {width : Nat} (hop : s.operator? = some (op, width))
  (hnext : s.peekAt width ≠ .punct .rparen) (hlevel : level ≤ (Fixity.ofName op.name).level)

include hop hnext hlevel

/-- Another operator is read with its right operand. -/
theorem chainAfter_operator (n : Nat) :
    chainAfter (n + 1) level lhs s = (do
      let rhs ← chain n (Fixity.ofName op.name).rightLevel
      let whole := Expr.binOp op lhs rhs (lhs.span.merge rhs.span)
      match ← look (·.operator?) with
      | none => return whole
      | some (next, _) =>
        if (Fixity.ofName op.name).assoc = .none ∧
            Fixity.ofName next.name = Fixity.ofName op.name then
          fail (.nonAssociative next.name next.span)
        else chainAfter n level whole : Parser Expr) (s.drop width) := by
  have hskip : skip width s = .done () (s.drop width) := rfl
  rw [chainAfter, run_bind (look_operator hop)]
  simp only
  rw [run_bind (look_peekAt rfl), if_neg (by simp [hnext, hlevel])]
  exact run_bind hskip

/-- The right operand may be wrong. -/
theorem chainAfter_failed {e}
    (hrhs : Settles (fun n => chain n (Fixity.ofName op.name).rightLevel) (s.drop width)
      (.failed e)) : Settles (fun n => chainAfter n level lhs) s (.failed e) :=
  .succ ((Settles.bind_failed hrhs).congr (chainAfter_operator hop hnext hlevel))

section

variable {rhs : Expr}
  (hrhs : Settles (fun n => chain n (Fixity.ofName op.name).rightLevel) (s.drop width)
    (.done rhs s'))

include hrhs

/-- The chain goes on behind the right operand, with the whole as its left operand. -/
theorem chainAfter_step {answer} (hclash : ∀ next width', s'.operator? = some (next, width') →
      ¬ (Fixity.ofName op.name).Clashes (Fixity.ofName next.name))
    (hafter : Settles (fun n => chainAfter n level (.binOp op lhs rhs (lhs.span.merge rhs.span))) s'
      answer) : Settles (fun n => chainAfter n level lhs) s answer := by
  refine .succ ((Settles.bind hrhs ?_).congr (chainAfter_operator hop hnext hlevel))
  cases hop' : s'.operator? with
  | none =>
    -- the chain ends here, whether or not it looks for another operator
    have hanswer := hafter.unique (chainAfter_end fun next width' h => by rw [hop'] at h; cases h)
    refine .always fun n => ?_
    rw [run_bind (look_operator hop'), hanswer]
    rfl
  | some found =>
    obtain ⟨next, width'⟩ := found
    have hne : ¬ ((Fixity.ofName op.name).assoc = .none ∧
        Fixity.ofName next.name = Fixity.ofName op.name) := hclash next width' hop'
    refine hafter.congr fun n => ?_
    rw [run_bind (look_operator hop')]
    simp only
    rw [if_neg hne]

/-- The chain ends with an error before an operator that clashes. -/
theorem chainAfter_clash {next width'} (hop' : s'.operator? = some (next, width'))
    (hclash : (Fixity.ofName op.name).Clashes (Fixity.ofName next.name)) :
    Settles (fun n => chainAfter n level lhs) s
      (.failed (.nonAssociative next.name next.span)) := by
  refine .succ ((Settles.bind hrhs (.always fun n => ?_)).congr
    (chainAfter_operator hop hnext hlevel))
  have hboth : (Fixity.ofName op.name).assoc = .none ∧
      Fixity.ofName next.name = Fixity.ofName op.name := hclash
  rw [run_bind (look_operator hop')]
  simp only
  rw [if_pos hboth]
  rfl

end

end

/-! ## Trees -/

namespace OpTree

variable {t : OpTree Operator Operand}

/-- **A tree is read like an operand.** The chain that starts with the tokens of a tree goes on
behind them with the tree as its left operand, if the tree ends there. -/
theorem settles (h : t.Respects Operator.fixity) (huniform : Uniform Operator.fixity t.ops)
    (prev : Option Span) {more} (hmore : startsAtom (Stream.peek ⟨none, more⟩) = false)
    (hends : ∀ next width, Stream.operator? ⟨none, more⟩ = some (next, width) →
      t.Ends Operator.fixity (.ofName next.name)) :
    ∃ last, ∀ {level answer}, (∀ top ∈ t.top?, level ≤ top.fixity.level) →
      Settles (fun n => chainAfter n level t.expr) ⟨last, more⟩ answer →
        Settles (fun n => chain n level) ⟨prev, t.tokens ++ more⟩ answer := by
  induction t generalizing prev more with
  | leaf a =>
    obtain ⟨last, hoperand⟩ := a.reads.settles prev hmore
    refine ⟨last, @fun level answer _ hafter => ?_⟩
    have hchain : Settles (fun n => operand n >>= fun lhs => chainAfter n level lhs)
        ⟨prev, a.tokens ++ more⟩ answer := .bind hoperand hafter
    have htokens : (leaf a : OpTree Operator Operand).tokens = a.tokens := List.append_nil _
    rw [htokens]
    exact .succ (hchain.congr fun n => rfl)
  | node op left right ihleft ihright =>
    have hrespects := h
    obtain ⟨_, _, hrleft, hrright⟩ := h
    obtain ⟨last, hreadLeft⟩ := ihleft hrleft huniform.left prev
      (op.startsAtom_tokens (right.tokens ++ more))
      (op.ends_before _ (hrespects.ends_left huniform))
    obtain ⟨last', hdrop⟩ := op.drop_tokens last (right.tokens ++ more)
    obtain ⟨last'', hreadRight⟩ := ihright hrright huniform.right last' hmore
      fun next width hop => (hends next width hop).2.2
    refine ⟨last'', @fun level answer hlevel hafter => ?_⟩
    have hop : level ≤ op.fixity.level := hlevel op rfl
    rw [tokens_node, List.append_assoc, List.append_assoc]
    refine hreadLeft (hrespects.le_left hop) ?_
    refine chainAfter_step (op.operator?_tokens last _) ?_ hop ?_ ?_ hafter
    · rw [op.peekAt_tokens]
      exact right.starts more
    · rw [hdrop]
      refine hreadRight hrespects.rightLevel_le (chainAfter_end fun next width hnext => ?_)
      have hnot := (hends next width hnext).1
      rw [Fixity.allowsRight_iff] at hnot
      exact Nat.lt_of_not_le hnot
    · exact fun next width hnext => (hends next width hnext).2.1

/-- **A tree is not read if it blocks the operator behind it.** The operator is reported. -/
theorem settles_clash (h : t.Respects Operator.fixity) (huniform : Uniform Operator.fixity t.ops)
    {op} (hblocks : t.Blocks Operator.fixity op) (prev : Option Span) (more : List (Located Token))
    {level : Nat} (hlevel : ∀ top ∈ t.top?, level ≤ top.fixity.level) :
    Settles (fun n => chain n level) ⟨prev, t.tokens ++ (op.tokens ++ more)⟩
      (.failed (.nonAssociative op.id.name op.id.span)) := by
  induction t generalizing prev level with
  | leaf a => cases hblocks
  | node top left right _ ihright =>
    have hrespects := h
    obtain ⟨_, _, hrleft, hrright⟩ := h
    obtain ⟨last, hreadLeft⟩ := settles hrleft huniform.left prev
      (top.startsAtom_tokens (right.tokens ++ (op.tokens ++ more)))
      (top.ends_before _ (hrespects.ends_left huniform))
    obtain ⟨last', hdrop⟩ := top.drop_tokens last (right.tokens ++ (op.tokens ++ more))
    have htop : level ≤ top.fixity.level := hlevel top rfl
    have hstarts : Stream.peekAt ⟨last, top.tokens ++ (right.tokens ++ (op.tokens ++ more))⟩
        top.tokens.length ≠ .punct .rparen := by
      rw [top.peekAt_tokens]
      exact right.starts _
    rw [tokens_node, List.append_assoc, List.append_assoc]
    refine hreadLeft (hrespects.le_left htop) ?_
    rcases hblocks with hclash | ⟨_, hblocks⟩
    · -- the right operand ends before the operator, which then clashes with the top
      have hends : right.Ends Operator.fixity op.fixity :=
        hrespects.ends_right (by rw [hclash.1]; nofun) (Nat.le_of_eq (by rw [hclash.2]))
      obtain ⟨last'', hreadRight⟩ := settles hrright huniform.right last'
        (op.startsAtom_tokens more) (op.ends_before more hends)
      have hrhs : Settles (fun n => chain n top.fixity.rightLevel)
          ⟨last', right.tokens ++ (op.tokens ++ more)⟩
          (.done right.expr ⟨last'', op.tokens ++ more⟩) := by
        refine hreadRight hrespects.rightLevel_le (chainAfter_end fun next width hnext => ?_)
        cases (op.operator?_tokens last'' more).symm.trans hnext
        exact hclash.lt_rightLevel
      rw [← hdrop] at hrhs
      exact chainAfter_clash (top.operator?_tokens last _) hstarts htop hrhs
        (op.operator?_tokens last'' more) hclash
    · refine chainAfter_failed (top.operator?_tokens last _) hstarts htop ?_
      rw [hdrop]
      exact ihright hrright huniform.right hblocks last' hrespects.rightLevel_le

end OpTree

/-! ## The table of fixities -/

namespace Fixity

/-- The fixities that operators have. -/
def table : List Fixity :=
  [⟨9, .right⟩, ⟨7, .left⟩, ⟨6, .left⟩, ⟨5, .right⟩, ⟨4, .none⟩, ⟨3, .right⟩, ⟨2, .right⟩,
    ⟨1, .left⟩, ⟨0, .right⟩, ⟨9, .left⟩]

theorem ofName_mem_table (name : String) : ofName name ∈ table := by
  unfold ofName
  repeat' split
  all_goals decide

theorem eq_dot_of_ofName {name : String} (h : ofName name = ⟨9, .right⟩) : name = "." := by
  by_cases hdot : name = "."
  · exact hdot
  · rw [ofName, if_neg hdot] at h
    repeat' split at h
    all_goals cases h

end Fixity

/-- Operators of one level have one fixity, but for a dot and the operators that are not in the
table. -/
theorem uniform_of_dot {ops}
    (h : ¬ ((∃ op ∈ ops, op.id.name = ".") ∧ ∃ op ∈ ops, op.fixity = ⟨9, .left⟩)) :
    OpTree.Uniform Operator.fixity ops := by
  have htable : ∀ f ∈ Fixity.table, ∀ g ∈ Fixity.table, f.level = g.level →
      f = g ∨ f = ⟨9, .right⟩ ∧ g = ⟨9, .left⟩ ∨ f = ⟨9, .left⟩ ∧ g = ⟨9, .right⟩ := by decide
  intro one hone two htwo hlevel
  rcases htable _ (Fixity.ofName_mem_table one.id.name) _ (Fixity.ofName_mem_table two.id.name)
    hlevel with heq | ⟨hdot, hleft⟩ | ⟨hleft, hdot⟩
  · exact heq
  · exact absurd ⟨⟨one, hone, Fixity.eq_dot_of_ofName hdot⟩, two, htwo, hleft⟩ h
  · exact absurd ⟨⟨two, htwo, Fixity.eq_dot_of_ofName hdot⟩, one, hone, hleft⟩ h

/-- Two operators of level 4 stand in the list with none of a lower level between them. -/
def ComparesTwice (ops : List Operator) : Prop :=
  ∃ before one between two after, ops = before ++ one :: (between ++ two :: after) ∧
    one.fixity.level = 4 ∧ two.fixity.level = 4 ∧ ∀ op ∈ between, 4 ≤ op.fixity.level

/-- The operators that do not associate are those of level 4. -/
theorem clashes_iff (one two : Operator) :
    one.fixity.Clashes two.fixity ↔ one.fixity.level = 4 ∧ two.fixity.level = 4 := by
  have htable : ∀ f ∈ Fixity.table, ∀ g ∈ Fixity.table,
      (f.assoc = .none ∧ g = f) ↔ f.level = 4 ∧ g.level = 4 := by decide
  exact htable _ (Fixity.ofName_mem_table one.id.name) _ (Fixity.ofName_mem_table two.id.name)

theorem clash_iff (ops : List Operator) : OpTree.Clash Operator.fixity ops ↔ ComparesTwice ops := by
  constructor
  · rintro ⟨before, one, between, two, after, rfl, hclash, hbetween⟩
    obtain ⟨hone, htwo⟩ := (clashes_iff one two).mp hclash
    rw [hone] at hbetween
    exact ⟨before, one, between, two, after, rfl, hone, htwo, hbetween⟩
  · rintro ⟨before, one, between, two, after, rfl, hone, htwo, hbetween⟩
    refine ⟨before, one, between, two, after, rfl, (clashes_iff one two).mpr ⟨hone, htwo⟩, ?_⟩
    rw [hone]
    exact hbetween

/-! ## Whole chains -/

theorem expr_settles {s' e} (h : Settles (fun n => chain n 0) s (.done e s'))
    (hend : s'.peek = .eof) : Settles expr s (.done e s') := by
  have htype : s'.peek ≠ .reserved .doubleColon := by
    rw [hend]
    nofun
  obtain ⟨n, hn⟩ := h
  refine .succ ⟨n, fun m hm => ?_⟩
  show expr (m + 1) s = .done e s'
  rw [expr, run_bind (hn m hm), run_bind (eat_other htype)]
  rfl

theorem expr_settles_failed {error} (h : Settles (fun n => chain n 0) s (.failed error)) :
    Settles expr s (.failed error) :=
  .succ ((Settles.bind_failed h).congr fun _ => rfl)

/-- A tree with the chain as its in-order reading that is nested as the fixities say. -/
structure OpTree.IsTreeOf (t : OpTree Operator Operand) (first : Operand)
    (rest : List (Operator × Operand)) : Prop where
  first_eq : t.first = first
  rest_eq : t.rest = rest
  respects : t.Respects Operator.fixity

namespace OpTree.IsTreeOf

variable {t : OpTree Operator Operand} {first : Operand} {rest : List (Operator × Operand)}

theorem tokens_eq (h : t.IsTreeOf first rest) : t.tokens = first.tokens ++ chainText rest := by
  rw [tokens, h.first_eq, h.rest_eq]

theorem uniform (h : t.IsTreeOf first rest)
    (huniform : Uniform Operator.fixity (rest.map Prod.fst)) : Uniform Operator.fixity t.ops := by
  rw [ops, h.rest_eq]
  exact huniform

theorem eq_build (h : t.IsTreeOf first rest)
    (huniform : Uniform Operator.fixity (rest.map Prod.fst)) :
    t = build Operator.fixity first rest := by
  have hbuild := build_of_respects h.respects (h.uniform huniform)
  rw [h.first_eq, h.rest_eq] at hbuild
  exact hbuild.symm

/-- A tree is the answer to its tokens. -/
theorem parseExpr_eq (h : t.IsTreeOf first rest)
    (huniform : Uniform Operator.fixity (rest.map Prod.fst)) (stop : Span) :
    parseExpr (first.tokens ++ chainText rest ++ [⟨.eof, stop⟩]) = .ok t.expr := by
  have hstop : startsAtom (Stream.peek ⟨none, [⟨.eof, stop⟩]⟩) = false := rfl
  obtain ⟨last, hread⟩ := settles h.respects (h.uniform huniform) none hstop nofun
  have hchain : Settles (fun n => chain n 0) ⟨none, t.tokens ++ [⟨.eof, stop⟩]⟩
      (.done t.expr ⟨last, [⟨.eof, stop⟩]⟩) :=
    hread (fun _ _ => Nat.zero_le _) (chainAfter_end nofun)
  rw [← h.tokens_eq]
  exact parseExpr_of_settles (expr_settles hchain rfl)

end OpTree.IsTreeOf

/-- The first operator that clashes with one before it is reported. -/
theorem parseExpr_clash (first : Operand) {rest}
    (huniform : OpTree.Uniform Operator.fixity (rest.map Prod.fst)) {front back op}
    (hops : rest.map Prod.fst = front ++ op :: back) (hfront : ¬ OpTree.Clash Operator.fixity front)
    (hclash : OpTree.Clash Operator.fixity (front ++ [op])) (stop : Span) :
    parseExpr (first.tokens ++ chainText rest ++ [⟨.eof, stop⟩]) =
      .error (.nonAssociative op.id.name op.id.span) := by
  obtain ⟨frontRest, tail, rfl, rfl, htail⟩ := List.map_eq_append_iff.mp hops
  obtain ⟨⟨op, a⟩, backRest, rfl, rfl, rfl⟩ := List.map_eq_cons_iff.mp htail
  rw [List.map_append, List.map_cons] at huniform
  -- what stands before the operator has a tree, and the tree blocks the operator
  have hbefore : OpTree.Uniform Operator.fixity (frontRest.map Prod.fst) :=
    huniform.subset (List.subset_append_left _ _)
  obtain ⟨t, hfirst, hrest, hrespects⟩ :=
    (OpTree.exists_respects_iff first frontRest hbefore).mpr hfront
  have hops : t.ops = frontRest.map Prod.fst := congrArg (List.map Prod.fst) hrest
  have hblocks : t.Blocks Operator.fixity op := by
    rw [← hops] at hclash huniform
    refine OpTree.blocks_of_clash hrespects (huniform.subset ?_) hclash
    simp
  rw [← hops] at hbefore
  have hchain : Settles (fun n => chain n 0)
      ⟨none, t.tokens ++ (op.tokens ++ (a.tokens ++ chainText backRest ++ [⟨.eof, stop⟩]))⟩
      (.failed (.nonAssociative op.id.name op.id.span)) :=
    OpTree.settles_clash hrespects hbefore hblocks none _ fun _ _ => Nat.zero_le _
  have htokens : first.tokens ++ chainText (frontRest ++ (op, a) :: backRest) ++ [⟨.eof, stop⟩] =
      t.tokens ++ (op.tokens ++ (a.tokens ++ chainText backRest ++ [⟨.eof, stop⟩])) := by
    rw [OpTree.tokens, hfirst, hrest, chainText_append, chainText]
    simp
  rw [htokens]
  exact parseExpr_of_settles (expr_settles_failed hchain)

/-- **Operators bind by their fixities.** The answer to a chain of operands and operators is the one
tree that has the chain as its reading and is nested as the fixities say. There is such a tree
unless two operators of level 4 stand in the chain with no looser one between them; then the answer
is an error that names the first operator to complete such a pair. -/
theorem operators_bind_by_fixity (first : Operand) (rest : List (Operator × Operand)) (stop : Span)
    (hdot : ¬ ((∃ op ∈ rest.map Prod.fst, op.id.name = ".") ∧
      ∃ op ∈ rest.map Prod.fst, op.fixity = ⟨9, .left⟩)) :
    (∃ t : OpTree Operator Operand, t.IsTreeOf first rest ∧
      (∀ t' : OpTree Operator Operand, t'.IsTreeOf first rest → t' = t) ∧
      ¬ ComparesTwice (rest.map Prod.fst) ∧
      parseExpr (first.tokens ++ chainText rest ++ [⟨.eof, stop⟩]) = .ok t.expr) ∨
    (¬ ∃ t : OpTree Operator Operand, t.IsTreeOf first rest) ∧ ComparesTwice (rest.map Prod.fst) ∧
      ∃ front op back, rest.map Prod.fst = front ++ op :: back ∧
        ¬ ComparesTwice front ∧ ComparesTwice (front ++ [op]) ∧
        parseExpr (first.tokens ++ chainText rest ++ [⟨.eof, stop⟩]) =
          .error (.nonAssociative op.id.name op.id.span) := by
  have huniform := uniform_of_dot hdot
  have hexists := OpTree.exists_respects_iff first rest huniform
  rw [← clash_iff]
  by_cases hclash : OpTree.Clash Operator.fixity (rest.map Prod.fst)
  · refine .inr ⟨?_, hclash, ?_⟩
    · rintro ⟨t, ht⟩
      exact hexists.mp ⟨t, ht.first_eq, ht.rest_eq, ht.respects⟩ hclash
    · obtain ⟨front, op, back, hops, hfront, hop⟩ := hclash.exists_first
      refine ⟨front, op, back, hops, ?_, ?_, parseExpr_clash first huniform hops hfront hop stop⟩
      · rwa [← clash_iff]
      · rwa [← clash_iff]
  · obtain ⟨t, hfirst, hrest, hrespects⟩ := hexists.mpr hclash
    have ht : t.IsTreeOf first rest := ⟨hfirst, hrest, hrespects⟩
    refine .inl ⟨t, ht, fun t' ht' => ?_, hclash, ht.parseExpr_eq huniform stop⟩
    rw [ht'.eq_build huniform, ht.eq_build huniform]

/-- A name as an operand. -/
def Operand.name (name : String) (place : Nat) : Operand :=
  ⟨[⟨.varId name, .point place⟩], .var ⟨name, .point place⟩, .atom (.var name (.point place))⟩

/-- A symbol as an operator. -/
def Operator.symbol (name : String) (place : Nat) : Operator :=
  ⟨[⟨.op name, .point place⟩], ⟨name, .point place⟩, .symbol name (.point place)⟩

/-- A name in backticks as an operator. -/
def Operator.quoted (name : String) (place : Nat) : Operator :=
  ⟨[⟨.punct .backtick, .point place⟩, ⟨.varId name, .point (place + 1)⟩,
    ⟨.punct .backtick, .point (place + 2)⟩], ⟨name, .point (place + 1)⟩, .quoted name _ _ _⟩

/-- The expression that stands in parentheses in the operand below. -/
def comparison : Expr :=
  .binOp ⟨"==", .point 5⟩ (.var ⟨"b", .point 4⟩) (.var ⟨"c", .point 6⟩)
    ((Span.point 4).merge (.point 6))

theorem expr_comparison :
    expr 20 ⟨some (.point 3), [⟨.varId "b", .point 4⟩, ⟨.op "==", .point 5⟩,
      ⟨.varId "c", .point 6⟩] ++ [⟨.punct .rparen, .point 7⟩]⟩ =
      .done comparison ⟨some (.point 6), [⟨.punct .rparen, .point 7⟩]⟩ := rfl

/-- The operand `f (b == c)`. -/
def Operand.ofComparison : Operand :=
  ⟨_, _, .app (.atom (.var "f" (.point 2))) (.paren rfl expr_comparison)⟩

/-- The chain that goes on ``+ f (b == c) `div` d == e && g``. -/
def mixedRest : List (Operator × Operand) :=
  [(.symbol "+" 1, .ofComparison), (.quoted "div" 8, .name "d" 11), (.symbol "==" 12, .name "e" 13),
    (.symbol "&&" 14, .name "g" 15)]

/-- The tree of the chain behind `a`. -/
def mixedTree : OpTree Operator Operand :=
  .node (.symbol "&&" 14)
    (.node (.symbol "==" 12)
      (.node (.symbol "+" 1) (.leaf (.name "a" 0))
        (.node (.quoted "div" 8) (.leaf .ofComparison) (.leaf (.name "d" 11))))
      (.leaf (.name "e" 13)))
    (.leaf (.name "g" 15))

/-- The chain that goes on `== b + c /= d`. -/
def comparedRest : List (Operator × Operand) :=
  [(.symbol "==" 1, .name "b" 2), (.symbol "+" 3, .name "c" 4), (.symbol "/=" 5, .name "d" 6)]

/-- One chain is read as its tree, and of the other an operator is reported. -/
theorem mixedRest_parsed :
    parseExpr ((Operand.name "a" 0).tokens ++ chainText mixedRest ++ [⟨.eof, .point 16⟩]) =
        .ok mixedTree.expr ∧
      ∃ op ∈ comparedRest.map Prod.fst,
        parseExpr ((Operand.name "a" 0).tokens ++ chainText comparedRest ++ [⟨.eof, .point 7⟩]) =
          .error (.nonAssociative op.id.name op.id.span) := by
  have hmixed : mixedTree.IsTreeOf (.name "a" 0) mixedRest := ⟨rfl, rfl, by decide +kernel⟩
  have hcompared : ComparesTwice (comparedRest.map Prod.fst) :=
    ⟨[], .symbol "==" 1, [.symbol "+" 3], .symbol "/=" 5, [], rfl, by decide +kernel⟩
  constructor
  · rcases operators_bind_by_fixity (.name "a" 0) mixedRest (.point 16) (by decide +kernel) with
      ⟨t, -, hunique, -, hparsed⟩ | ⟨hnone, -⟩
    · rw [hparsed, hunique mixedTree hmixed]
    · exact absurd ⟨mixedTree, hmixed⟩ hnone
  · rcases operators_bind_by_fixity (.name "a" 0) comparedRest (.point 7) (by decide +kernel) with
      ⟨_, -, -, hnot, -⟩ | ⟨-, -, front, op, back, hops, -, -, hparsed⟩
    · exact absurd hcompared hnot
    · exact ⟨op, by simp [hops], hparsed⟩

end Lamina.Surface
