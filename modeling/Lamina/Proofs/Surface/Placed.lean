import Lamina.Proofs.Surface.Spelled
import Lamina.Proofs.Text.Between

/-!
# Trees whose spans nest

A tree stands between two offsets of a text if its span does and its parts stand inside its span,
with the declarations of a block one behind the other (`Expr.Between`). The tokens of a text stand
one behind the other (`Stream.Laid`), and so do the parts that a parser puts together. It merges the
spans of the first part and of the last, so the parts that it does not mention are inside.
-/

namespace Lamina.Surface

/-- Names between two offsets. -/
def NamesBetween (mark : Nat → Prop) (low high : Nat) (ids : List Ident) : Prop :=
  ∀ id ∈ ids, id.span.Between mark low high

mutual

/-- An expression between two offsets, and its parts inside its span. -/
def Expr.Between (mark : Nat → Prop) (low high : Nat) : Expr → Prop
  | .var id => id.span.Between mark low high
  | .con id => id.span.Between mark low high
  | .lit _ span => span.Between mark low high
  | .binOp op lhs rhs span => span.Between mark low high ∧
    op.span.Between mark span.start span.stop ∧ lhs.Between mark span.start span.stop ∧
    rhs.Between mark span.start span.stop
  | .neg arg span => span.Between mark low high ∧ arg.Between mark span.start span.stop
  | .app func arg span => span.Between mark low high ∧
    func.Between mark span.start span.stop ∧ arg.Between mark span.start span.stop
  | .cond test onTrue onFalse span => span.Between mark low high ∧
    test.Between mark span.start span.stop ∧ onTrue.Between mark span.start span.stop ∧
    onFalse.Between mark span.start span.stop
  | .letIn decls body span => span.Between mark low high ∧
    DeclsBetween mark span.start span.stop decls ∧ body.Between mark span.start span.stop
  | .lambda params body span => span.Between mark low high ∧
    NamesBetween mark span.start span.stop params ∧ body.Between mark span.start span.stop
  | .caseOf scrutinee span => span.Between mark low high ∧
    scrutinee.Between mark span.start span.stop
  | .doBlock span => span.Between mark low high
  | .tuple elems span => span.Between mark low high ∧ ElemsBetween mark span.start span.stop elems
  | .list elems span => span.Between mark low high ∧ ElemsBetween mark span.start span.stop elems

/-- A declaration between two offsets, and its parts inside its span. -/
def Decl.Between (mark : Nat → Prop) (low high : Nat) : Decl → Prop
  | .function name params body span => span.Between mark low high ∧
    name.span.Between mark span.start span.stop ∧ NamesBetween mark span.start span.stop params ∧
    body.Between mark span.start span.stop
  | .value name body span => span.Between mark low high ∧
    name.span.Between mark span.start span.stop ∧ body.Between mark span.start span.stop
  | .signature names span => span.Between mark low high ∧
    NamesBetween mark span.start span.stop names
  | .unsupported _ span => span.Between mark low high

/-- Declarations between two offsets, one behind the other. -/
def DeclsBetween (mark : Nat → Prop) (low high : Nat) : List Decl → Prop
  | [] => True
  | decl :: rest => decl.Between mark low high ∧ DeclsBetween mark decl.span.stop high rest

/-- Expressions between two offsets. -/
def ElemsBetween (mark : Nat → Prop) (low high : Nat) : List Expr → Prop
  | [] => True
  | elem :: rest => elem.Between mark low high ∧ ElemsBetween mark low high rest

end

/-- A module between two offsets, and its parts inside its span. -/
structure Module.Between (mark : Nat → Prop) (low high : Nat) (m : Module) : Prop where
  span : m.span.Between mark low high
  name : NamesBetween mark m.span.start m.span.stop m.name.toList
  exports : NamesBetween mark m.span.start m.span.stop m.exports
  decls : DeclsBetween mark m.span.start m.span.stop m.decls

section

variable {mark : Nat → Prop} {low high low' high' a b c d : Nat} {e : Expr} {decl : Decl}
  {decls : List Decl} {elems : List Expr} {ids : List Ident}

theorem NamesBetween.widen (h : NamesBetween mark low high ids) (hlow : low' ≤ low)
    (hhigh : high ≤ high') : NamesBetween mark low' high' ids :=
  fun id hid => (h id hid).widen hlow hhigh

theorem Expr.Between.span (h : e.Between mark low high) : e.span.Between mark low high := by
  cases e with
  | var | con | lit | doBlock => exact h
  | _ => exact And.left h

/-- Of where an expression stands only its span matters. -/
theorem Expr.Between.within (h : e.Between mark low high) (hlow : low' ≤ e.span.start)
    (hhigh : e.span.stop ≤ high') : e.Between mark low' high' := by
  have hspan := h.span.within hlow hhigh
  cases e with
  | var | con | lit | doBlock => exact hspan
  | _ => exact And.intro hspan (And.right h)

theorem Expr.Between.widen (h : e.Between mark low high) (hlow : low' ≤ low)
    (hhigh : high ≤ high') : e.Between mark low' high' :=
  h.within (Nat.le_trans hlow h.span.low) (Nat.le_trans h.span.high hhigh)

theorem Decl.Between.span (h : decl.Between mark low high) : decl.span.Between mark low high := by
  cases decl with
  | unsupported => exact h
  | _ => exact And.left h

theorem Decl.Between.widen (h : decl.Between mark low high) (hlow : low' ≤ low)
    (hhigh : high ≤ high') : decl.Between mark low' high' := by
  cases decl with
  | unsupported => exact Span.Between.widen h hlow hhigh
  | _ => exact And.imp_left (·.widen hlow hhigh) h

theorem DeclsBetween.widen (h : DeclsBetween mark low high decls) (hlow : low' ≤ low)
    (hhigh : high ≤ high') : DeclsBetween mark low' high' decls := by
  induction decls generalizing low low' with
  | nil => trivial
  | cons decl rest ih =>
    exact And.imp (·.widen hlow hhigh) (ih · (Nat.le_refl _)) h

theorem DeclsBetween.cons {rest : List Decl} (h : decl.Between mark low a)
    (hrest : DeclsBetween mark a high rest) (hle : a ≤ high) :
    DeclsBetween mark low high (decl :: rest) :=
  And.intro (h.widen (Nat.le_refl _) hle) (hrest.widen h.span.high (Nat.le_refl _))

theorem ElemsBetween.widen (h : ElemsBetween mark low high elems) (hlow : low' ≤ low)
    (hhigh : high ≤ high') : ElemsBetween mark low' high' elems := by
  induction elems with
  | nil => trivial
  | cons elem rest ih =>
    exact And.imp (·.widen hlow hhigh) ih h

theorem ElemsBetween.cons {rest : List Expr} (h : e.Between mark low a) (hle : low ≤ a)
    (hrest : ElemsBetween mark a high rest) (hle' : a ≤ high) :
    ElemsBetween mark low high (e :: rest) :=
  And.intro (h.widen (Nat.le_refl _) hle') (hrest.widen hle (Nat.le_refl _))

/-! ## Parts one behind the other -/

variable {start last : Span} {op : Ident} {params : List Ident}
  {lhs rhs func arg test onTrue onFalse body value : Expr}

theorem Expr.Between.binOp (hlhs : lhs.Between mark low a) (hop : op.span.Between mark a b)
    (hrhs : rhs.Between mark b high) :
    (Expr.binOp op lhs rhs (lhs.span.merge rhs.span)).Between mark low high := by
  have hlast := hrhs.span.widen hop.le (Nat.le_refl _)
  refine And.intro (hlhs.span.merge hlast) ?_
  rw [hlhs.span.merge_eq hlast]
  exact ⟨hop.widen hlhs.span.start_le hrhs.span.le_stop,
    hlhs.within (Nat.le_refl _) (Nat.le_trans hlhs.span.high hlast.le_stop),
    hrhs.within (Nat.le_trans hlhs.span.start_le hlast.low) (Nat.le_refl _)⟩

theorem Expr.Between.neg (hstart : start.Between mark low a) (harg : arg.Between mark a high) :
    (Expr.neg arg (start.merge arg.span)).Between mark low high := by
  refine And.intro (hstart.merge harg.span) ?_
  rw [hstart.merge_eq harg.span]
  exact harg.within (Nat.le_trans hstart.start_le harg.span.low) (Nat.le_refl _)

theorem Expr.Between.app (hfunc : func.Between mark low a) (harg : arg.Between mark a high) :
    (Expr.app func arg (func.span.merge arg.span)).Between mark low high := by
  refine And.intro (hfunc.span.merge harg.span) ?_
  rw [hfunc.span.merge_eq harg.span]
  exact ⟨hfunc.within (Nat.le_refl _) (Nat.le_trans hfunc.span.high harg.span.le_stop),
    harg.within (Nat.le_trans hfunc.span.start_le harg.span.low) (Nat.le_refl _)⟩

theorem Expr.Between.cond (hstart : start.Between mark low a) (htest : test.Between mark a b)
    (htrue : onTrue.Between mark b c) (hfalse : onFalse.Between mark c high) :
    (Expr.cond test onTrue onFalse (start.merge onFalse.span)).Between mark low high := by
  have hle := Nat.le_trans htest.span.le htrue.span.le
  have hlast := hfalse.span.widen hle (Nat.le_refl _)
  refine And.intro (hstart.merge hlast) ?_
  rw [hstart.merge_eq hlast]
  exact ⟨htest.widen hstart.start_le (Nat.le_trans htrue.span.le hfalse.span.le_stop),
    htrue.widen (Nat.le_trans hstart.start_le htest.span.le) hfalse.span.le_stop,
    hfalse.within (Nat.le_trans hstart.start_le hlast.low) (Nat.le_refl _)⟩

theorem Expr.Between.letIn (hstart : start.Between mark low a) (hle : a ≤ b)
    (hdecls : DeclsBetween mark a b decls) (hbody : body.Between mark b high) :
    (Expr.letIn decls body (start.merge body.span)).Between mark low high := by
  have hlast := hbody.span.widen hle (Nat.le_refl _)
  refine And.intro (hstart.merge hlast) ?_
  rw [hstart.merge_eq hlast]
  exact ⟨hdecls.widen hstart.start_le hbody.span.le_stop,
    hbody.within (Nat.le_trans hstart.start_le hlast.low) (Nat.le_refl _)⟩

/-- A block that stands behind the value it is for. -/
theorem Expr.Between.whereIn (hvalue : value.Between mark low a) (hstart : start.Between mark a b)
    (hdecls : DeclsBetween mark b c decls) (hlast : last.Between mark b high) (hc : c ≤ last.stop) :
    (Expr.letIn decls value ((start.merge value.span).merge last)).Between mark low high := by
  have hmerge : (start.merge value.span).merge last = ⟨value.span.start, last.stop⟩ := by
    rw [start.merge_comm, (hvalue.span.merge hstart).merge_eq hlast, hvalue.span.merge_eq hstart]
  have hvalue_le := Nat.le_trans hvalue.span.high (Nat.le_trans hstart.le hlast.le_stop)
  rw [hmerge]
  refine And.intro ⟨hvalue.span.low, Nat.le_trans hvalue.span.ordered hvalue_le, hlast.high,
    hvalue.span.start, hlast.stop⟩ ?_
  exact ⟨hdecls.widen (Nat.le_trans hvalue.span.start_le hstart.le) hc,
    hvalue.within (Nat.le_refl _) hvalue_le⟩

theorem Expr.Between.lambda (hstart : start.Between mark low a) (hle : a ≤ b)
    (hparams : NamesBetween mark a b params) (hbody : body.Between mark b high) :
    (Expr.lambda params body (start.merge body.span)).Between mark low high := by
  have hlast := hbody.span.widen hle (Nat.le_refl _)
  refine And.intro (hstart.merge hlast) ?_
  rw [hstart.merge_eq hlast]
  exact ⟨hparams.widen hstart.start_le hbody.span.le_stop,
    hbody.within (Nat.le_trans hstart.start_le hlast.low) (Nat.le_refl _)⟩

theorem ElemsBetween.within_merge (hstart : start.Between mark low a) (hle : a ≤ b)
    (helems : ElemsBetween mark a b elems) (hlast : last.Between mark b high) :
    (start.merge last).Between mark low high ∧
      ElemsBetween mark (start.merge last).start (start.merge last).stop elems := by
  have hlast' := hlast.widen hle (Nat.le_refl _)
  refine ⟨hstart.merge hlast', ?_⟩
  rw [hstart.merge_eq hlast']
  exact helems.widen hstart.start_le hlast.le_stop

end

/-! ## Tokens one behind the other -/

namespace Stream

variable {mark : Nat → Prop} {s s' s₁ : Stream} {prev : Option Span} {token : Located Token}
  {rest : List (Located Token)} {least i j n : Nat}

/-- Where the part that is read ends. -/
def floor (s : Stream) : Nat :=
  match s.prev with
  | some span => span.stop
  | none => 0

/-- Tokens one behind the other. -/
def Spaced (mark : Nat → Prop) : Nat → List (Located Token) → Prop
  | _, [] => True
  | low, token :: rest =>
    token.span.Between mark low token.span.stop ∧ Spaced mark token.span.stop rest

/-- A stream of the tokens of a text. -/
structure Laid (mark : Nat → Prop) (s : Stream) : Prop where
  zero : mark 0
  prev : ∀ span ∈ s.prev, span.Between mark 0 span.stop
  names : PlainTokens s.rest
  rest : Spaced mark s.floor s.rest

namespace Laid

theorem tail (h : s.Laid mark) : s.tail.Laid mark := by
  obtain ⟨prev, _ | ⟨token, rest⟩⟩ := s
  · exact h
  · refine ⟨h.zero, ?_, h.names.tail, h.rest.2⟩
    rintro span ⟨⟩
    exact h.rest.1.widen (Nat.zero_le _) (Nat.le_refl _)

theorem floor_le_tail (h : s.Laid mark) : s.floor ≤ s.tail.floor := by
  obtain ⟨prev, _ | ⟨token, rest⟩⟩ := s
  · exact Nat.le_refl _
  · exact h.rest.1.le_stop

/-- The next token. -/
theorem next (h : s.Laid mark) (hpos : 0 < s.rest.length) :
    s.here.Between mark s.floor s.tail.floor := by
  obtain ⟨prev, _ | ⟨token, rest⟩⟩ := s
  · exact absurd hpos (Nat.lt_irrefl 0)
  · exact h.rest.1

theorem here (h : s.Laid mark) : s.here.Between mark 0 s.here.stop := by
  obtain ⟨_ | span, _ | ⟨token, rest⟩⟩ := s
  · exact ⟨Nat.le_refl 0, Nat.le_refl 0, Nat.le_refl 0, h.zero, h.zero⟩
  · exact h.rest.1
  · exact h.prev span rfl
  · exact h.rest.1.widen (Nat.zero_le _) (Nat.le_refl _)

theorem here_le (h : s.Laid mark) : s.here.start ≤ s.tail.floor := by
  obtain ⟨_ | span, _ | ⟨token, rest⟩⟩ := s
  · exact Nat.le_refl 0
  · exact h.rest.1.ordered
  · exact (h.prev span rfl).ordered
  · exact h.rest.1.ordered

end Laid

/-- A stream with at least `least` tokens more read. -/
def Passes (least : Nat) (s s' : Stream) : Prop :=
  ∃ k, least ≤ k ∧ k ≤ s.rest.length ∧ s' = s.drop k

theorem drop_drop (s : Stream) (m n : Nat) : (s.drop m).drop n = s.drop (m + n) := by
  induction m generalizing s with
  | zero => rw [Nat.zero_add, drop]
  | succ m ih => rw [drop, ih, Nat.succ_add, drop]

theorem length_drop (s : Stream) (n : Nat) : (s.drop n).rest.length = s.rest.length - n := by
  induction n generalizing s with
  | zero => rfl
  | succ n ih =>
    rw [drop, ih, length_tail]
    omega

namespace Passes

theorem refl (s : Stream) : Passes 0 s s := ⟨0, Nat.le_refl 0, Nat.zero_le _, rfl⟩

theorem mono (h : Passes i s s') (hle : least ≤ i) : Passes least s s' := by
  obtain ⟨k, hk, hlength, rfl⟩ := h
  exact ⟨k, Nat.le_trans hle hk, hlength, rfl⟩

theorem trans (h : Passes i s s₁) (h' : Passes j s₁ s') : Passes (i + j) s s' := by
  obtain ⟨k, hk, hlength, rfl⟩ := h
  obtain ⟨l, hl, hlength', rfl⟩ := h'
  rw [length_drop] at hlength'
  exact ⟨k + l, by omega, by omega, drop_drop s k l⟩

theorem drop (h : n ≤ s.rest.length) : Passes n s (s.drop n) := ⟨n, Nat.le_refl n, h, rfl⟩

theorem cons (h : Passes least ⟨some token.span, rest⟩ s') :
    Passes (least + 1) ⟨prev, token :: rest⟩ s' := by
  obtain ⟨k, hk, hlength, rfl⟩ := h
  exact ⟨k + 1, Nat.succ_le_succ hk, Nat.succ_le_succ hlength, rfl⟩

theorem length_le (h : Passes least s s') : s'.rest.length + least ≤ s.rest.length := by
  obtain ⟨k, hk, hlength, rfl⟩ := h
  rw [length_drop]
  omega

theorem laid (h : Passes least s s') (hs : s.Laid mark) : s'.Laid mark := by
  obtain ⟨k, -, -, rfl⟩ := h
  induction k generalizing s with
  | zero => exact hs
  | succ k ih => exact ih hs.tail

theorem floor_le (h : Passes least s s') (hs : s.Laid mark) : s.floor ≤ s'.floor := by
  obtain ⟨k, -, -, rfl⟩ := h
  induction k generalizing s with
  | zero => exact Nat.le_refl _
  | succ k ih => exact Nat.le_trans hs.floor_le_tail (ih hs.tail)

/-- The last token that was read ends where the part that is read ends. -/
theorem before (h : Passes 1 s s') (hs : s.Laid mark) :
    s'.before.Between mark s.floor s'.floor ∧ s'.before.stop = s'.floor := by
  obtain ⟨k, hk, hlength, rfl⟩ := h
  induction k generalizing s with
  | zero => exact absurd hk (Nat.not_succ_le_zero 0)
  | succ k ih =>
    obtain ⟨prev, _ | ⟨token, rest⟩⟩ := s
    · exact absurd hlength (Nat.not_succ_le_zero k)
    · obtain rfl | hpos := Nat.eq_zero_or_pos k
      · exact ⟨hs.rest.1, rfl⟩
      · obtain ⟨hbefore, hstop⟩ := ih hs.tail hpos (Nat.le_of_succ_le_succ hlength)
        exact ⟨hbefore.widen hs.floor_le_tail (Nat.le_refl _), hstop⟩

/-- The span from the next token to the last one that is read. -/
theorem merge (h : Passes 1 s s') (hs : s.Laid mark) :
    s.here.merge s'.before = ⟨s.here.start, s'.floor⟩ ∧
      Span.Between mark s.floor s'.floor ⟨s.here.start, s'.floor⟩ := by
  obtain ⟨_ | k, hk, hlength, rfl⟩ := h
  · exact absurd hk (Nat.not_succ_le_zero 0)
  have hnext := hs.next (Nat.lt_of_lt_of_le (Nat.succ_pos k) hlength)
  obtain rfl | hpos := Nat.eq_zero_or_pos k
  · obtain ⟨prev, _ | ⟨token, rest⟩⟩ := s
    · exact absurd hlength (Nat.not_succ_le_zero 0)
    · exact ⟨Span.merge_self token.span, hnext⟩
  · have hlength' : k ≤ s.tail.rest.length := by
      rw [length_tail]
      omega
    obtain ⟨hbefore, hstop⟩ := before ⟨k, hpos, hlength', rfl⟩ hs.tail
    have heq := hnext.merge_eq hbefore
    rw [hstop] at heq
    exact ⟨heq, heq ▸ hnext.merge hbefore⟩

end Passes

end Stream

end Lamina.Surface
