import Lamina.Proofs.Surface.Placed
import Lamina.Surface.Parser

/-!
# Progress, places and the bound on nesting

No parser moves back in its stream, and most of them read at least one token where they succeed.
Between two tokens that are read only a few rules of the grammar are entered, which gives each rule
its rank: a rule that may nest `n` deep, with twelve for each token ahead and its rank to spare,
does not reach its bound. So the bound that `nestingBound` gives is never reached. And the trees that
are made of the tokens of a text are those that a text can have, with their spans nested, and errors
point at marks of the text. All this is one judgement (`Spends`), followed once through the grammar.
-/

namespace Lamina.Surface

open Lamina.Surface.Parser

variable {s s' : Stream} {token : Token} {plain room : Prop} {n : Nat}
  {tokens : List (Located Token)} {mark : Nat → Prop}

/-! ## Streams -/

namespace Stream

theorem length_pos_of_peek (h : s.peek ≠ .eof) : 0 < s.rest.length := by
  unfold peek at h
  split at h
  · rename_i hrest
    simp [hrest]
  · exact absurd rfl h

theorem peek_drop (s : Stream) (n : Nat) : (s.drop n).peek = s.peekAt n := by
  induction n generalizing s with
  | zero => obtain ⟨prev, _ | ⟨token, rest⟩⟩ := s <;> rfl
  | succ n ih =>
    rw [drop, ih]
    obtain ⟨prev, _ | ⟨token, rest⟩⟩ := s <;> rfl

theorem rest_tail_suffix (s : Stream) : s.tail.rest <:+ s.rest := by
  obtain ⟨prev, _ | ⟨token, rest⟩⟩ := s
  · exact List.suffix_refl []
  · exact List.suffix_cons token rest

theorem rest_drop_suffix (s : Stream) (n : Nat) : (s.drop n).rest <:+ s.rest := by
  induction n generalizing s with
  | zero => exact List.suffix_refl _
  | succ n ih => exact (ih s.tail).trans s.rest_tail_suffix

theorem Passes.suffix {least : Nat} (h : Passes least s s') : s'.rest <:+ s.rest := by
  obtain ⟨k, -, -, rfl⟩ := h
  exact s.rest_drop_suffix k

theorem splitNames_passes (prev : Option Span) (tokens : List (Located Token)) :
    Passes 0 ⟨prev, tokens⟩ (splitNames prev tokens).2 := by
  induction tokens generalizing prev with
  | nil => exact .refl _
  | cons token rest ih =>
    obtain ⟨value, span⟩ := token
    cases value with
    | varId name => exact (ih (some span)).cons.mono (Nat.zero_le 1)
    | _ => exact .refl _

theorem splitNames_between (prev : Option Span) (tokens : List (Located Token))
    (hs : (⟨prev, tokens⟩ : Stream).Laid mark) :
    (∀ id ∈ (splitNames prev tokens).1, SourceName id.name) ∧ NamesBetween mark
      (⟨prev, tokens⟩ : Stream).floor (splitNames prev tokens).2.floor (splitNames prev tokens).1 := by
  induction tokens generalizing prev with
  | nil => exact ⟨List.forall_mem_nil _, List.forall_mem_nil _⟩
  | cons token rest ih =>
    obtain ⟨value, span⟩ := token
    cases value with
    | varId name =>
      obtain ⟨hnames, hplaces⟩ := ih (some span) hs.tail
      have hle := (splitNames_passes (some span) rest).floor_le hs.tail
      refine ⟨List.forall_mem_cons.mpr ⟨hs.names.head, hnames⟩, List.forall_mem_cons.mpr ⟨?_, ?_⟩⟩
      · exact hs.rest.1.widen (Nat.le_refl _) hle
      · exact hplaces.widen hs.floor_le_tail (Nat.le_refl _)
    | _ => exact ⟨List.forall_mem_nil _, List.forall_mem_nil _⟩

/-- An operator is there with all its tokens. -/
theorem width_le {op width} (h : s.operator? = some (op, width)) :
    1 ≤ width ∧ width ≤ s.rest.length := by
  unfold operator? at h
  split at h
  · rename_i hrest
    cases h
    simp [hrest]
  · rename_i hrest
    cases h
    simp [hrest]
  · cases h

/-- An operator stands where its tokens do. -/
theorem Laid.operator {op width} (hs : s.Laid mark) (h : s.operator? = some (op, width)) :
    op.span.Between mark s.floor (s.drop width).floor := by
  obtain ⟨prev, rest⟩ := s
  unfold operator? at h
  split at h
  · rename_i hrest
    subst hrest
    cases h
    exact hs.rest.1
  · rename_i hrest
    subst hrest
    cases h
    obtain ⟨hopen, hname, hclose, -⟩ := hs.rest
    exact hname.widen hopen.le_stop hclose.le_stop
  · cases h

end Stream

/-! ## Skipped parts -/

/-- How a token changes the number of open brackets. -/
def bracketWeight : Token → Int
  | .punct .lbrace | .punct .lparen | .punct .lbracket => 1
  | .punct .rbrace | .punct .rparen | .punct .rbracket => -1
  | _ => 0

/-- How a token changes the number of open brackets of one kind. -/
def pairWeight (opening closing : Punct) : Token → Int
  | .punct sign => if sign = opening then 1 else if sign = closing then -1 else 0
  | _ => 0

/-- The rest from the first token on at which to stop. -/
def scan (stops : Nat → Token → Bool) (weight : Token → Int) (depth : Nat) (prev : Option Span) :
    List (Located Token) → Stream
  | [] => ⟨prev, []⟩
  | token :: rest =>
    if stops depth token.value then ⟨prev, token :: rest⟩
    else scan stops weight (depth + weight token.value).toNat (some token.span) rest

/-- Does a declaration that is skipped end at a token? -/
def declStops (depth : Nat) : Token → Bool
  | .eof => true
  | .punct .semi | .punct .rbrace | .punct .rparen | .punct .rbracket => depth == 0
  | _ => false

/-- Does a type that is skipped end at a token? -/
def typeStops (depth : Nat) : Token → Bool
  | .eof => true
  | .punct .rbrace | .punct .rparen | .punct .rbracket => depth == 0
  | other => depth == 0 && endsType other

/-- Does a group in brackets end at a token? -/
def groupStops (closing : Punct) (depth : Nat) : Token → Bool
  | .eof => true
  | .punct sign => sign == closing && depth == 0
  | _ => false

theorem toNat_pred (depth : Nat) : ((depth : Int) + -1).toNat = depth - 1 := by omega

theorem dropSemis_eq_scan (prev : Option Span) (tokens : List (Located Token)) :
    Stream.dropSemis prev tokens =
      scan (fun _ token => token != .punct .semi) (fun _ => 0) 0 prev tokens := by
  induction tokens generalizing prev with
  | nil => rfl
  | cons token rest ih =>
    obtain ⟨value, span⟩ := token
    cases value with
    | punct mark =>
      cases mark with
      | semi => exact ih (some span)
      | _ => rfl
    | _ => rfl

theorem dropDecl_eq_scan (depth : Nat) (prev : Option Span) (tokens : List (Located Token)) :
    dropDecl depth prev tokens = scan declStops bracketWeight depth prev tokens := by
  induction tokens generalizing depth prev with
  | nil => rfl
  | cons token rest ih =>
    obtain ⟨value, span⟩ := token
    rw [dropDecl, scan]
    cases value with
    | punct mark => cases mark <;> simp [declStops, bracketWeight, toNat_pred, ih]
    | _ => simp [declStops, bracketWeight, ih]

theorem dropType_eq_scan (depth : Nat) (prev : Option Span) (tokens : List (Located Token)) :
    dropType depth prev tokens = scan typeStops bracketWeight depth prev tokens := by
  induction tokens generalizing depth prev with
  | nil => rfl
  | cons token rest ih =>
    obtain ⟨value, span⟩ := token
    rw [dropType, scan]
    cases value with
    | punct mark => cases mark <;> simp [typeStops, endsType, bracketWeight, toNat_pred, ih]
    | _ => simp [typeStops, bracketWeight, ih]

theorem dropBlock_eq_scan (inner : Nat) (prev : Option Span) (tokens : List (Located Token)) :
    dropBlock inner prev tokens =
      let s := scan (groupStops .rbrace) (pairWeight .lbrace .rbrace) inner prev tokens
      if s.peek = .punct .rbrace then .done () s.tail else unexpected "block" s := by
  induction tokens generalizing inner prev with
  | nil => rfl
  | cons token rest ih =>
    obtain ⟨value, span⟩ := token
    rw [dropBlock, scan]
    cases value with
    | eof => rfl
    | punct sign =>
      cases sign with
      | rbrace =>
        by_cases hinner : inner = 0
        · subst hinner
          rfl
        · simp [groupStops, pairWeight, toNat_pred, hinner, ih]
      | _ => simp [groupStops, pairWeight, ih]
    | _ => simp [groupStops, pairWeight, ih]

theorem scan_passes (stops : Nat → Token → Bool) (weight : Token → Int) (depth : Nat)
    (prev : Option Span) (tokens : List (Located Token)) :
    Stream.Passes 0 ⟨prev, tokens⟩ (scan stops weight depth prev tokens) := by
  induction tokens generalizing depth prev with
  | nil => exact .refl _
  | cons token rest ih =>
    rw [scan]
    split
    · exact .refl _
    · exact (ih _ _).cons.mono (Nat.zero_le 1)

/-! ## Parsers -/

section

variable {α β : Type} {p : Parser α} {k : α → Parser β} {s s' : Stream}

theorem run_bind {a : α} (h : p s = .done a s') : (p >>= k) s = k a s' := by
  show Parser.bind p k s = k a s'
  unfold Parser.bind
  rw [h]

theorem bind_failed {e} (h : p s = .failed e) : (p >>= k) s = .failed e := by
  show Parser.bind p k s = .failed e
  unfold Parser.bind
  rw [h]

theorem done_of_bind {b : β} (h : (p >>= k) s = .done b s') :
    ∃ a s₁, p s = .done a s₁ ∧ k a s₁ = .done b s' := by
  change Parser.bind p k s = .done b s' at h
  unfold Parser.bind at h
  split at h
  · rename_i a s₁ hp
    exact ⟨a, s₁, hp, h⟩
  · cases h
  · cases h

end

theorem unexpected_failed {α : Type} (expected : String) (s : Stream) :
    ∃ e, (unexpected expected : Parser α) s = .failed e := by
  unfold unexpected
  split <;> exact ⟨_, rfl⟩

theorem at_here {e : SyntaxError} (hs : s.Laid mark) (h : e.span? = some s.here) : e.At mark := by
  rw [SyntaxError.At, h]
  rintro span ⟨⟩
  exact hs.here

theorem at_operator {e : SyntaxError} {op width} (hs : s.Laid mark)
    (hop : s.operator? = some (op, width)) (h : e.span? = some op.span) : e.At mark := by
  rw [SyntaxError.At, h]
  rintro span ⟨⟩
  exact (hs.operator hop).within (Nat.zero_le _) (Nat.le_refl _)

/-- An unexpected token is blamed where it stands. -/
theorem unexpected_at {α expected e} (hs : s.Laid mark)
    (h : (unexpected expected : Parser α) s = .failed e) : e.At mark := by
  unfold unexpected at h
  split at h
  · cases h
    exact nofun
  · cases h
    exact at_here hs rfl

theorem peek_run (s : Stream) : peek s = .done s.peek s := rfl

theorem look_operator {found} (h : s.operator? = found) : look (·.operator?) s = .done found s := by
  subst h
  rfl

theorem look_peekAt (h : s.peekAt n = token) : look (·.peekAt n) s = .done token s := by
  subst h
  rfl

theorem eat_found (h : s.peek = token) : eat token s = .done true s.tail := by
  unfold eat
  rw [run_bind (peek_run s), if_pos h]
  rfl

theorem eat_other (h : s.peek ≠ token) : eat token s = .done false s := by
  unfold eat
  rw [run_bind (peek_run s), if_neg h]
  rfl

/-- An answer with another value. -/
def Outcome.change {α : Type} (c : α → α) : Outcome α → Outcome α
  | .done a rest => .done (c a) rest
  | other => other

/-- What becomes of a stream: the rest, with at least `least` tokens read, and a value with the
property if the tokens are `plain`; or an error that points at marks. Where there is `room`, the bound
on nesting is not reached. -/
inductive Spent {α : Type} (plain room : Prop) (mark : Nat → Prop) (least : Nat)
    (P : Stream → α → Prop) (s : Stream) : Outcome α → Prop
  | done {a s'} (hpass : s.Passes least s') (hvalue : plain → P s' a) :
      Spent plain room mark least P s (.done a s')
  | failed {e} (he : plain → e.At mark) : Spent plain room mark least P s (.failed e)
  | exhausted (h : ¬ room) : Spent plain room mark least P s .exhausted

namespace Spent

variable {α : Type} {plain room room' : Prop} {least least' i : Nat} {P Q : Stream → α → Prop}
  {s middle : Stream} {answer : Outcome α}

/-- What becomes of a rest, seen from before it. -/
theorem behind (h : Spent plain room' mark least' P middle answer) (hpass : s.Passes i middle)
    (hroom : room → room') (hleast : least ≤ i + least') :
    Spent plain room mark least P s answer := by
  cases h with
  | done hpass' hvalue => exact .done ((hpass.trans hpass').mono hleast) hvalue
  | failed he => exact .failed he
  | exhausted h => exact .exhausted fun hgiven => h (hroom hgiven)

theorem change {c} (h : Spent plain room mark least P s answer) (hs : plain → s.Laid mark)
    (hc : ∀ s' a, plain → s.floor ≤ s'.floor → P s' a → Q s' (c a)) :
    Spent plain room mark least Q s (answer.change c) := by
  cases h with
  | done hpass hvalue =>
    exact .done hpass fun hplain =>
      hc _ _ hplain (hpass.floor_le (hs hplain)) (hvalue hplain)
  | failed he => exact .failed he
  | exhausted h => exact .exhausted h

theorem unexpected (expected : String) (hs : plain → middle.Laid mark) :
    Spent plain room mark least P s (Parser.unexpected expected middle) := by
  obtain ⟨e, he⟩ := unexpected_failed expected middle
  rw [he]
  exact .failed fun hplain => unexpected_at (hs hplain) he

end Spent

theorem splitExports_spent {low : Nat} (inner : Nat) (prev : Option Span)
    (tokens : List (Located Token)) (hs : plain → (⟨prev, tokens⟩ : Stream).Laid mark)
    (hlow : plain → low ≤ (⟨prev, tokens⟩ : Stream).floor) :
    Spent plain room mark 0 (fun s' ids => NamesBetween mark low s'.floor ids)
      ⟨prev, tokens⟩ (splitExports inner prev tokens) := by
  induction tokens generalizing inner prev with
  | nil => exact .unexpected _ hs
  | cons token rest ih =>
    have htail := fun hplain => (hs hplain).tail
    have hnames (inner : Nat) := ih inner (some token.span) htail fun hplain =>
      Nat.le_trans (hlow hplain) (hs hplain).floor_le_tail
    have hmore (inner : Nat) := (hnames inner).behind (s := ⟨prev, token :: rest⟩)
      (.cons (.refl _)) id (Nat.zero_le _)
    rw [splitExports]
    split
    · exact .unexpected _ hs
    · exact hmore _
    · split
      · exact .done ((Stream.Passes.refl _).cons.mono (Nat.zero_le 1)) fun _ => List.forall_mem_nil _
      · exact hmore _
    -- a name is kept or not; what follows it is read by the same rule
    iterate 2
      · rename_i name _
        have hname := (hnames inner).change (Q := fun s' ids => NamesBetween mark low s'.floor ids)
          (c := fun ids => if inner = 0 then ⟨name, token.span⟩ :: ids else ids) htail
          fun s' ids hplain hle hids => by
            split
            · exact List.forall_mem_cons.mpr ⟨(hs hplain).rest.1.widen (hlow hplain) hle, hids⟩
            · exact hids
        have hbehind := hname.behind (s := ⟨prev, token :: rest⟩) (.cons (.refl _)) id (Nat.zero_le _)
        revert hbehind
        cases splitExports inner (some token.span) rest <;> exact id
    · exact hmore _

theorem splitDotted_stop (id : Ident) (prev : Option Span)
    (h : ∀ span part span' rest, tokens ≠ ⟨.op ".", span⟩ :: ⟨.conId part, span'⟩ :: rest) :
    splitDotted id prev tokens = (id, ⟨prev, tokens⟩) := by
  unfold splitDotted
  split
  · exact (h _ _ _ _ rfl).elim
  · rfl

theorem splitDotted_passes (id : Ident) (prev : Option Span) (tokens : List (Located Token)) :
    Stream.Passes 0 ⟨prev, tokens⟩ (splitDotted id prev tokens).2 := by
  induction id, prev, tokens using splitDotted.induct with
  | case1 id prev span part span' rest ih =>
    rw [splitDotted]
    exact ih.cons.cons.mono (Nat.zero_le 2)
  | case2 id prev tokens hother =>
    rw [splitDotted_stop id prev hother]
    exact .refl _

theorem splitDotted_between {low : Nat} (id : Ident) (prev : Option Span)
    (tokens : List (Located Token)) (hs : (⟨prev, tokens⟩ : Stream).Laid mark)
    (hid : id.span.Between mark low (⟨prev, tokens⟩ : Stream).floor) :
    (splitDotted id prev tokens).1.span.Between mark low (splitDotted id prev tokens).2.floor := by
  induction id, prev, tokens using splitDotted.induct with
  | case1 id prev span part span' rest ih =>
    obtain ⟨hdot, hpart, -⟩ := hs.rest
    rw [splitDotted]
    exact ih hs.tail.tail (hid.merge (hpart.widen hdot.le_stop (Nat.le_refl _)))
  | case2 id prev tokens hother =>
    rw [splitDotted_stop id prev hother]
    exact hid

theorem splitCommaNames_cons (prev : Option Span) (span : Span) (name : String) (span' : Span)
    (rest : List (Located Token)) :
    splitCommaNames prev (⟨.punct .comma, span⟩ :: ⟨.varId name, span'⟩ :: rest) =
      (splitCommaNames (some span') rest).change (⟨name, span'⟩ :: ·) := by
  rw [splitCommaNames]
  cases splitCommaNames (some span') rest <;> rfl

theorem splitCommaNames_comma (prev : Option Span) (span : Span) {rest}
    (h : ∀ name span' more, rest ≠ ⟨.varId name, span'⟩ :: more) :
    splitCommaNames prev (⟨.punct .comma, span⟩ :: rest) =
      unexpected "identifier" ⟨some span, rest⟩ := by
  obtain _ | ⟨⟨value, span'⟩, more⟩ := rest
  · rfl
  · cases value with
    | varId name => exact (h name span' more rfl).elim
    | _ => rfl

theorem splitCommaNames_stop (prev : Option Span)
    (h : ∀ span rest, tokens ≠ ⟨.punct .comma, span⟩ :: rest) :
    splitCommaNames prev tokens = .done [] ⟨prev, tokens⟩ := by
  obtain _ | ⟨⟨value, span⟩, rest⟩ := tokens
  · rfl
  · cases value with
    | punct mark =>
      cases mark with
      | comma => exact (h span rest rfl).elim
      | _ => rfl
    | _ => rfl

theorem splitCommaNames_spent {low : Nat} (prev : Option Span) (tokens : List (Located Token))
    (hs : plain → (⟨prev, tokens⟩ : Stream).Laid mark)
    (hlow : plain → low ≤ (⟨prev, tokens⟩ : Stream).floor) :
    Spent plain room mark 0 (fun s' ids => NamesBetween mark low s'.floor ids) ⟨prev, tokens⟩
      (splitCommaNames prev tokens) := by
  induction prev, tokens using splitCommaNames.induct with
  | case1 prev span name span' rest _ _ _ ih | case2 prev span name span' rest _ ih =>
    have htail := fun hplain => (hs hplain).tail.tail
    have hle := fun hplain => Nat.le_trans (hlow hplain) (hs hplain).rest.1.le_stop
    have hnames := ih htail fun hplain => Nat.le_trans (hle hplain) (hs hplain).rest.2.1.le_stop
    rw [splitCommaNames_cons]
    refine Spent.behind (hnames.change htail fun s' ids hplain hfloor hids => ?_)
      (.cons (.cons (.refl _))) id (Nat.zero_le _)
    exact List.forall_mem_cons.mpr ⟨(hs hplain).rest.2.1.widen (hle hplain) hfloor, hids⟩
  | case3 prev span rest hother =>
    rw [splitCommaNames_comma prev span hother]
    exact .unexpected _ fun hplain => (hs hplain).tail
  | case4 prev tokens _ hother =>
    rw [splitCommaNames_stop prev hother]
    exact .done (.refl _) fun _ => List.forall_mem_nil _

/-- An expression that was read from the offset on. -/
def Expr.Read (mark : Nat → Prop) (low : Nat) (s : Stream) (e : Expr) : Prop :=
  e.Formed ∧ e.Between mark low s.floor

theorem Expr.Read.later {low : Nat} {e : Expr} (h : e.Read mark low s) (hle : s.floor ≤ s'.floor) :
    e.Read mark low s' := ⟨h.1, h.2.widen (Nat.le_refl _) hle⟩

/-- A declaration that was read from the offset on. -/
def Decl.Read (mark : Nat → Prop) (low : Nat) (s : Stream) (decl : Decl) : Prop :=
  decl.Formed ∧ decl.Between mark low s.floor

/-- Declarations that were read from the offset on. -/
def DeclsRead (mark : Nat → Prop) (low : Nat) (s : Stream) (decls : List Decl) : Prop :=
  FormedDecls decls ∧ DeclsBetween mark low s.floor decls

/-- The names of a header that was read from the offset on, before what follows it. -/
def HeaderRead (mark : Nat → Prop) (low : Nat) (s : Stream) (top : Option Ident × List Ident) : Prop :=
  NamesBetween mark low s.floor top.1.toList ∧ NamesBetween mark low s.floor top.2 ∧
    low ≤ s.tail.floor

/-- Elements that were read from the offset on. -/
def ElemsRead (mark : Nat → Prop) (low : Nat) (s : Stream) (elems : List Expr) : Prop :=
  ElemsBetween mark low s.floor elems

/-- A parser reads at least `least` tokens where it succeeds, and makes a value with the property of
the tokens of a text. Its errors point at marks of the text. And it does not reach a bound of `n` on
nesting that allows for twelve rules at each token and for `rank` more. -/
def Spends {α : Type} (plain : Prop) (mark : Nat → Prop) (n rank least : Nat)
    (P : Stream → α → Prop) (p : Parser α) (s : Stream) : Prop :=
  (plain → s.Laid mark) → Spent plain (12 * s.rest.length + rank ≤ n) mark least P s (p s)

namespace Spends

variable {α β : Type} {plain : Prop} {n rank least : Nat} {P : Stream → α → Prop}
  {Q : Stream → β → Prop} {p : Parser α} {k : α → Parser β} {s next : Stream} {a : α}

/-- What is known of the stream. -/
theorem laid (h : (plain → s.Laid mark) → Spends plain mark n rank least P p s) :
    Spends plain mark n rank least P p s := fun hs => h hs hs

/-- What is known of the stream behind. -/
theorem passed (h : Spends plain mark n rank least
    (fun s' a => s.Laid mark → s.Passes least s' → P s' a) p s) :
    Spends plain mark n rank least P p s := by
  intro hs
  have hspent := h hs
  generalize p s = answer at hspent ⊢
  cases hspent with
  | done hpass hvalue => exact .done hpass fun hplain => hvalue hplain (hs hplain) hpass
  | failed he => exact .failed he
  | exhausted h => exact .exhausted h

/-- With more to spare, and less to be read. -/
theorem mono {rank' least' : Nat} (h : Spends plain mark n rank' least' P p s)
    (hrank : rank' ≤ rank) (hleast : least ≤ least') : Spends plain mark n rank least P p s :=
  fun hs => (h hs).behind (.refl s) (by omega) (by omega)

/-- One rule deeper. -/
theorem succ (h : Spends plain mark n rank least P p s) :
    Spends plain mark (n + 1) (rank + 1) least P p s :=
  fun hs => (h hs).behind (.refl s) (by omega) (by omega)

/-- Each token that is read gives room for twelve more rules. -/
theorem bind {i : Nat} (h : Spends plain mark n rank i P p s) (hk : ∀ a s', s.Passes i s' →
    (plain → s.floor ≤ s'.floor ∧ P s' a) →
      Spends plain mark n (rank + 12 * i) (least - i) Q (k a) s') :
    Spends plain mark n rank least Q (p >>= k) s := by
  intro hs
  have hfirst := h hs
  show Spent _ _ _ _ _ _ (Parser.bind p k s)
  unfold Parser.bind
  cases hp : p s with
  | done a middle =>
    rw [hp] at hfirst
    cases hfirst with
    | done hpass hvalue =>
      have hsecond := hk a middle hpass
        (fun hplain => ⟨hpass.floor_le (hs hplain), hvalue hplain⟩)
        fun hplain => hpass.laid (hs hplain)
      have hlength := hpass.length_le
      exact hsecond.behind hpass (by omega) (by omega)
  | failed e =>
    rw [hp] at hfirst
    cases hfirst with
    | failed he => exact .failed he
  | exhausted =>
    rw [hp] at hfirst
    cases hfirst with
    | exhausted h => exact .exhausted h

theorem pure (h : plain → P s a) : Spends plain mark n rank 0 P (Pure.pure a : Parser α) s :=
  fun _ => .done (.refl s) h

theorem outOfFuel (h : n < rank) :
    Spends plain mark n rank least P (Parser.outOfFuel : Parser α) s :=
  fun _ => .exhausted (by omega)

theorem fail {e} (h : plain → e.At mark) :
    Spends plain mark n rank least P (Parser.fail e : Parser α) s :=
  fun _ => .failed h

theorem unexpected (expected : String) :
    Spends plain mark n rank least P (Parser.unexpected expected : Parser α) s :=
  fun hs => .unexpected expected hs

/-- A parser whose answer is known, and then another. -/
theorem bind_run {i : Nat} (hp : p s = .done a next) (hpass : s.Passes i next)
    (h : Spends plain mark n (rank + 12 * i) (least - i) Q (k a) next) :
    Spends plain mark n rank least Q (p >>= k) s := by
  intro hs
  rw [run_bind hp]
  have hlength := hpass.length_le
  have hsecond := h fun hplain => hpass.laid (hs hplain)
  exact hsecond.behind hpass (by omega) (by omega)

/-- What is seen is known behind it. -/
theorem look_bind {f} (h : Spends plain mark n rank least Q (k (f s)) s) :
    Spends plain mark n rank least Q (Parser.look f >>= k) s :=
  bind_run rfl (.refl s) h

/-- A step to another stream. -/
theorem step (hp : p s = .done a next) (hpass : s.Passes least next) (h : plain → P next a) :
    Spends plain mark n rank least P p s := by
  intro _
  rw [hp]
  exact .done hpass h

theorem jump {f} (h : s.Passes 0 (f s)) :
    Spends plain mark n rank 0 (fun _ _ => True) (Parser.jump f) s := step rfl h fun _ => trivial

theorem advance_bind {k} (h : s.peek ≠ .eof)
    (hk : s.Passes 1 s.tail → (plain → s.here.Between mark s.floor s.tail.floor) →
      Spends plain mark n (rank + 12) (least - 1) Q (k s.here) s.tail) :
    Spends plain mark n rank least Q (Parser.advance >>= k) s :=
  have hpos := Stream.length_pos_of_peek h
  laid fun hs => bind_run rfl (.drop hpos) (hk (.drop hpos) fun hplain => (hs hplain).next hpos)

theorem expect_bind {k} (h : token ≠ .eof)
    (hk : s.Passes 1 s.tail → (plain → s.here.Between mark s.floor s.tail.floor) →
      Spends plain mark n (rank + 12) (least - 1) Q (k s.here) s.tail) :
    Spends plain mark n rank least Q (Parser.expect token >>= k) s := by
  unfold Parser.expect
  by_cases hpeek : s.peek = token
  · have hpos := Stream.length_pos_of_peek (hpeek ▸ h)
    refine laid fun hs => bind_run ?_ (.drop hpos)
      (hk (.drop hpos) fun hplain => (hs hplain).next hpos)
    rw [run_bind (peek_run s), if_pos hpeek]
    rfl
  · intro hs
    obtain ⟨e, he⟩ := unexpected_failed (α := Span) ("'" ++ token.text ++ "'") s
    rw [bind_failed (by rw [run_bind (peek_run s), if_neg hpeek, he])]
    exact .failed fun hplain => unexpected_at (hs hplain) he

/-- A token that may come next, and what follows in either case. -/
theorem eat_bind {k} (h : token ≠ .eof)
    (hfound : s.Passes 1 s.tail → (plain → s.here.Between mark s.floor s.tail.floor) →
      Spends plain mark n (rank + 12) (least - 1) Q (k true) s.tail)
    (hother : Spends plain mark n rank least Q (k false) s) :
    Spends plain mark n rank least Q (eat token >>= k) s := by
  by_cases hpeek : s.peek = token
  · have hpos := Stream.length_pos_of_peek (hpeek ▸ h)
    exact laid fun hs => bind_run (eat_found hpeek) (.drop hpos)
      (hfound (.drop hpos) fun hplain => (hs hplain).next hpos)
  · exact bind_run (eat_other hpeek) (.refl s) hother

theorem expectName : Spends plain mark n rank 1
    (fun s' id => id.span = s.here ∧ id.span.Between mark s.floor s'.floor) Parser.expectName s := by
  refine look_bind ?_
  split
  · rename_i hpeek
    have hpos := Stream.length_pos_of_peek (s := s) (by rw [hpeek]; exact nofun)
    exact laid fun hs => bind_run (i := 1) rfl (.drop hpos)
      (pure fun hplain => ⟨rfl, (hs hplain).next hpos⟩)
  · exact unexpected _

theorem names : Spends plain mark n rank 0
    (fun s' ids => (∀ id ∈ ids, SourceName id.name) ∧ NamesBetween mark s.floor s'.floor ids)
    Parser.names s :=
  fun hs => .done (Stream.splitNames_passes s.prev s.rest) fun hplain =>
    Stream.splitNames_between s.prev s.rest (hs hplain)

theorem skipDecl : Spends plain mark n rank 0 (fun _ _ => True) Parser.skipDecl s := by
  refine jump ?_
  rw [dropDecl_eq_scan]
  exact scan_passes ..

theorem skipType : Spends plain mark n rank 0 (fun _ _ => True) Parser.skipType s := by
  refine jump ?_
  rw [dropType_eq_scan]
  exact scan_passes ..

theorem skipBlock : Spends plain mark n rank 1 (fun _ _ => True) Parser.skipBlock s := by
  refine expect_bind nofun fun _ _ hs => ?_
  have hpass := scan_passes (groupStops .rbrace) (pairWeight .lbrace .rbrace) 0 s.tail.prev s.tail.rest
  show Spent _ _ _ _ _ _ (dropBlock 0 s.tail.prev s.tail.rest)
  rw [dropBlock_eq_scan]
  dsimp only
  split
  · rename_i hclose
    have hpos := Stream.length_pos_of_peek (by rw [hclose]; exact nofun)
    exact .done ((hpass.trans (.drop hpos)).mono (Nat.zero_le 1)) fun _ => trivial
  · exact .unexpected _ fun hplain => hpass.laid (hs hplain)

theorem skipSemiBefore (token : Token) :
    Spends plain mark n rank 0 (fun _ _ => True) (Parser.skipSemiBefore token) s := by
  refine jump ?_
  split
  · rename_i h
    have hpos := Stream.length_pos_of_peek (s := s) (by rw [h.1]; exact nofun)
    exact (Stream.Passes.drop hpos).mono (Nat.zero_le 1)
  · exact .refl s

theorem dropSemis : Spends plain mark n rank 0 (fun _ _ => True)
    (Parser.jump fun s => s.rest |> Stream.dropSemis s.prev) s := by
  refine jump ?_
  simp only [dropSemis_eq_scan]
  exact scan_passes ..

/-- A declaration that starts with a word of its own is skipped with that word. -/
theorem skipDecl_unsupported {what} (h : unsupported? s.peek = some what) :
    Spends plain mark n rank 1 (fun _ _ => True) Parser.skipDecl s := by
  obtain ⟨prev, _ | ⟨⟨value, span⟩, rest⟩⟩ := s
  · cases h
  have hdrop : dropDecl 0 prev (⟨value, span⟩ :: rest) = dropDecl 0 (some span) rest := by
    cases value with
    | keyword word => rfl
    | _ => cases h
  have hpass := scan_passes declStops bracketWeight 0 (some span) rest
  rw [← dropDecl_eq_scan, ← hdrop] at hpass
  exact step rfl (Stream.Passes.cons hpass) fun _ => trivial

theorem moduleName : Spends plain mark n rank 1
    (fun s' id => id.span.Between mark s.floor s'.floor) Parser.moduleName s := by
  refine look_bind ?_
  split
  · rename_i name hpeek
    refine advance_bind (by rw [hpeek]; exact nofun) fun _ hspan => laid fun hs => ?_
    exact step rfl (splitDotted_passes _ s.tail.prev s.tail.rest) fun hplain =>
      splitDotted_between _ s.tail.prev s.tail.rest (hs hplain) (hspan hplain)
  · exact unexpected _

theorem exportList : Spends plain mark n rank 1
    (fun s' ids => NamesBetween mark s.floor s'.floor ids) Parser.exportList s :=
  expect_bind nofun fun _ hopen hs =>
    splitExports_spent 0 s.tail.prev s.tail.rest hs fun hplain => (hopen hplain).le

theorem header :
    Spends plain mark n rank 0 (HeaderRead mark s.here.start) Parser.header s := by
  refine eat_bind nofun (fun _ hword => ?_) (laid fun hs => pure fun hplain =>
    ⟨List.forall_mem_nil _, List.forall_mem_nil _, (hs hplain).here_le⟩)
  refine bind moduleName fun name s₁ _ hname => ?_
  have hlast {ids : List Ident} {s₂ : Stream}
      (hids : plain → s₁.floor ≤ s₂.floor ∧ NamesBetween mark s₁.floor s₂.floor ids) :
      Spends plain mark n (rank + 12 + 12 * 1) 0 (HeaderRead mark s.here.start) (do
        let _ ← Parser.expect (.keyword .whereKw)
        Pure.pure (some name, ids) : Parser (Option Ident × List Ident)) s₂ := by
    refine expect_bind nofun fun _ hwhere => laid fun hs => pure fun hplain => ?_
    have hstart := (hword hplain).start_le
    obtain ⟨hle, hname⟩ := hname hplain
    obtain ⟨hle', hids⟩ := hids hplain
    have hwhere := (hwhere hplain).le
    have hle'' := (hs hplain).floor_le_tail
    exact ⟨List.forall_mem_singleton.mpr (hname.widen hstart (by omega)),
      hids.widen (by omega) hwhere, by omega⟩
  refine look_bind ?_
  split
  · exact bind exportList fun ids s₂ _ hids => (hlast hids).mono (by omega) (Nat.le_refl 0)
  · exact hlast fun _ => ⟨Nat.le_refl _, List.forall_mem_nil _⟩

theorem signature : Spends plain mark n rank 1 (Decl.Read mark s.floor) Parser.signature s := by
  refine passed (look_bind ?_)
  refine bind expectName fun first s₁ _ hfirst => ?_
  refine bind (i := 0) (fun hs => splitCommaNames_spent s₁.prev s₁.rest hs fun _ => Nat.le_refl _)
    fun more s₂ _ hmore => ?_
  refine expect_bind nofun fun _ hcolons => ?_
  refine bind skipDecl fun _ s₃ _ hrest => ?_
  refine look_bind (pure fun hplain hs hpass => ⟨trivial, ?_⟩)
  obtain ⟨-, hstart, hfirst⟩ := hfirst hplain
  obtain ⟨hle, hmore⟩ := hmore hplain
  have hle' : s₂.floor ≤ s₃.floor := Nat.le_trans (hcolons hplain).le (hrest hplain).1
  obtain ⟨hmerge, hwhole⟩ := hpass.merge hs
  rw [hmerge]
  rw [← hstart] at hwhole ⊢
  refine ⟨hwhole, List.forall_mem_cons.mpr ⟨?_, hmore.widen hfirst.start_le hle'⟩⟩
  exact hfirst.within (Nat.le_refl _) (Nat.le_trans hfirst.high (Nat.le_trans hle hle'))

theorem bindingParams : Spends plain mark n rank 0
    (fun s' ids => (∀ id ∈ ids, SourceName id.name) ∧ NamesBetween mark s.floor s'.floor ids)
    Parser.bindingParams s := by
  refine bind names fun params s₁ _ hparams => ?_
  refine look_bind ?_
  split
  · exact pure fun hplain => (hparams hplain).2
  · split
    · exact look_bind (laid fun hs => fail fun hplain => at_here (hs hplain) rfl)
    · exact unexpected _

theorem lambdaParams : Spends plain mark n rank 0
    (fun s' ids => FormedParams ids ∧ NamesBetween mark s.floor s'.floor ids)
    Parser.lambdaParams s := by
  refine bind names fun params s₁ _ hparams => ?_
  refine look_bind ?_
  split
  · rename_i hsome
    refine pure fun hplain => ?_
    obtain ⟨-, hnames, hplaces⟩ := hparams hplain
    refine ⟨⟨?_, hnames⟩, hplaces⟩
    rintro rfl
    simp at hsome
  · split
    · exact look_bind (laid fun hs => fail fun hplain => at_here (hs hplain) rfl)
    · exact unexpected _

end Spends

/-! ## The grammar -/

/-- Every rule of the grammar, nested at most `n` deep, with the room that it needs, the tokens that
it reads and the trees that it makes. -/
structure SpendsGrammar (plain : Prop) (mark : Nat → Prop) (n : Nat) : Prop where
  block : ∀ s, Spends plain mark n 1 1 (DeclsRead mark s.tail.floor) (block n) s
  decls : ∀ s, Spends plain mark n 3 1 (DeclsRead mark s.floor) (decls n) s
  decl : ∀ s, Spends plain mark n 2 1 (Decl.Read mark s.floor) (decl n) s
  binding : ∀ s, Spends plain mark n 1 1 (Decl.Read mark s.floor) (binding n) s
  whereBlock : ∀ {low value s}, (plain → Expr.Read mark low s value) →
    Spends plain mark n 1 0 (Expr.Read mark low) (whereBlock n value) s
  expr : ∀ s, Spends plain mark n 6 1 (Expr.Read mark s.floor) (expr n) s
  chain : ∀ level s, Spends plain mark n 5 1 (Expr.Read mark s.floor) (chain n level) s
  chainAfter : ∀ level {low lhs s}, (plain → Expr.Read mark low s lhs) →
    Spends plain mark n 1 0 (Expr.Read mark low) (chainAfter n level lhs) s
  operand : ∀ s, Spends plain mark n 4 1 (Expr.Read mark s.floor) (operand n) s
  compound : ∀ s, Spends plain mark n 3 1 (Expr.Read mark s.floor) (compound n) s
  args : ∀ {low func s}, (plain → Expr.Read mark low s func) →
    Spends plain mark n 3 0 (Expr.Read mark low) (args n func) s
  atom : ∀ s, Spends plain mark n 2 1 (Expr.Read mark s.floor) (atom n) s
  paren : ∀ s, Spends plain mark n 1 1 (Expr.Read mark s.floor) (paren n) s
  grouped : ∀ {low start s}, (plain → start.Between mark low s.floor) →
    Spends plain mark n 7 1 (Expr.Read mark low) (grouped n start) s
  elements : ∀ {low s}, (plain → low ≤ s.floor) →
    Spends plain mark n 7 1 (ElemsRead mark low) (elements n) s
  moreElements : ∀ s, Spends plain mark n 1 0 (ElemsRead mark s.floor) (moreElements n) s

namespace SpendsGrammar

variable {plain : Prop}

theorem zero : SpendsGrammar plain mark 0 := by
  constructor <;> intros <;> exact .outOfFuel (by decide)

section

variable {n : Nat} (h : SpendsGrammar plain mark n) (s : Stream)

include h

theorem decls_succ :
    Spends plain mark (n + 1) 3 1 (DeclsRead mark s.floor) (Parser.decls (n + 1)) s := by
  refine .succ (.bind .dropSemis fun _ s₁ _ hsemis => ?_)
  refine .eat_bind nofun (fun _ _ => .pure fun _ => ⟨trivial, trivial⟩) ?_
  refine .bind (h.decl s₁) fun first s₂ _ hfirst => ?_
  refine .look_bind ?_
  split
  · refine .bind ((h.decls s₂).mono (by decide) (Nat.le_refl 1)) fun more s₃ _ hmore => ?_
    refine .pure fun hplain => ?_
    obtain ⟨-, hformed, hplace⟩ := hfirst hplain
    obtain ⟨hle, hmore, hplaces⟩ := hmore hplain
    have hplace := hplace.widen (hsemis hplain).1 (Nat.le_refl _)
    exact ⟨formedDecls_cons hformed hmore, .cons hplace hplaces hle⟩
  · exact .unexpected _

theorem decl_succ :
    Spends plain mark (n + 1) 2 1 (Decl.Read mark s.floor) (Parser.decl (n + 1)) s := by
  refine .succ (.look_bind ?_)
  split
  · rename_i what hwhat
    refine .passed (.look_bind ?_)
    refine .bind (.skipDecl_unsupported hwhat) fun _ s₁ _ _ => ?_
    refine .look_bind (.pure fun hplain hs hpass => ⟨trivial, ?_⟩)
    obtain ⟨hmerge, hwhole⟩ := hpass.merge hs
    rw [hmerge]
    exact hwhole
  · refine .look_bind ?_
    split
    · refine .look_bind ?_
      split
      · exact .signature
      · exact (h.binding s).mono (by decide) (by decide)
    · exact .unexpected _

theorem binding_succ :
    Spends plain mark (n + 1) 1 1 (Decl.Read mark s.floor) (Parser.binding (n + 1)) s := by
  refine .succ (.passed (.bind .expectName fun name s₁ _ hname => ?_))
  refine .bind .bindingParams fun params s₂ _ hparams => ?_
  refine .expect_bind nofun fun _ hequals => ?_
  refine .bind ((h.expr s₂.tail).mono (by decide) (Nat.zero_le 1)) fun value s₃ _ hvalue => ?_
  have hread := fun hplain => (hvalue hplain).2
  refine .bind ((h.whereBlock hread).mono (by decide) (Nat.le_refl 0)) fun body s₄ _ hbody => ?_
  refine .look_bind (.pure fun hplain hs hpass => ?_)
  obtain ⟨-, hstart, hname⟩ := hname hplain
  obtain ⟨hle₁, hnames, hparams⟩ := hparams hplain
  obtain ⟨-, hformed, hbody⟩ := hbody hplain
  obtain ⟨hmerge, hwhole⟩ := hpass.merge hs
  rw [← hstart] at hmerge hwhole
  have hle₂ : s₂.floor ≤ s₄.floor := Nat.le_trans (hequals hplain).le hbody.span.le
  have hle₃ : name.span.start ≤ s₂.floor := Nat.le_trans hname.start_le hle₁
  have hname' := hname.within (Nat.le_refl _) (Nat.le_trans hname.high (Nat.le_trans hle₁ hle₂))
  have hparams' := hparams.widen hname.start_le hle₂
  have hbody' := hbody.widen (Nat.le_trans hle₃ (hequals hplain).le) (Nat.le_refl _)
  rw [hmerge]
  split
  · exact ⟨hformed, hwhole, hname', hbody'⟩
  · rename_i hempty
    refine ⟨⟨⟨?_, hnames⟩, hformed⟩, hwhole, hname', hparams', hbody'⟩
    rintro rfl
    exact hempty rfl

theorem whereBlock_succ {low value} (hvalue : plain → Expr.Read mark low s value) :
    Spends plain mark (n + 1) 1 0 (Expr.Read mark low) (Parser.whereBlock (n + 1) value) s := by
  refine .succ (.laid fun hs => .eat_bind nofun (fun hpass _ => ?_) (.pure hvalue))
  refine .laid fun hs' => .look_bind ?_
  refine .bind ((h.block s.tail).mono (by decide) (Nat.le_refl 1)) fun locals s₁ hpass₁ hlocals => ?_
  refine .look_bind (.pure fun hplain => ?_)
  obtain ⟨-, hformed, hdecls⟩ := hlocals hplain
  obtain ⟨hvalue, hplace⟩ := hvalue hplain
  obtain ⟨hlast, hstop⟩ := hpass₁.before (hs' hplain)
  have hdecls' := hdecls.widen (hs' hplain).floor_le_tail (Nat.le_of_eq hstop.symm)
  have hwhere := (hpass.before (hs hplain)).1
  exact ⟨⟨hformed, hvalue⟩, .whereIn hplace hwhere hdecls' hlast (Nat.le_refl _)⟩

theorem expr_succ :
    Spends plain mark (n + 1) 6 1 (Expr.Read mark s.floor) (Parser.expr (n + 1)) s := by
  refine .succ (.bind (h.chain 0 s) fun value s₁ _ hvalue => ?_)
  refine .eat_bind nofun (fun _ hcolons => ?_) (.pure fun hplain => (hvalue hplain).2)
  refine .bind .skipType fun _ s₂ _ htype => .pure fun hplain => ?_
  obtain ⟨-, hvalue⟩ := hvalue hplain
  exact hvalue.later (Nat.le_trans (hcolons hplain).le (htype hplain).1)

theorem chainAfter_succ {low} (level : Nat) {lhs} (hlhs : plain → Expr.Read mark low s lhs) :
    Spends plain mark (n + 1) 1 0 (Expr.Read mark low) (Parser.chainAfter (n + 1) level lhs) s := by
  refine .succ (.laid fun hs => .look_bind ?_)
  split
  · exact .pure hlhs
  · rename_i op width hop
    refine .look_bind ?_
    split
    · exact .pure hlhs
    · obtain ⟨hpos, hwidth⟩ := Stream.width_le hop
      refine .bind_run rfl ((Stream.Passes.drop hwidth).mono hpos) ?_
      refine .bind ((h.chain _ _).mono (by decide) (Nat.le_refl 1)) fun rhs s₁ _ hrhs => ?_
      have hwhole (hplain : plain) :
          (Expr.binOp op lhs rhs (lhs.span.merge rhs.span)).Read mark low s₁ :=
        have ⟨hlhs, hplace⟩ := hlhs hplain
        have ⟨_, hrhs, hplace'⟩ := hrhs hplain
        ⟨⟨(hs hplain).names.operator hop, hlhs, hrhs⟩,
          .binOp hplace ((hs hplain).operator hop) hplace'⟩
      refine .laid fun hs₁ => .look_bind ?_
      split
      · exact .pure hwhole
      · rename_i hnext
        split
        · exact .fail fun hplain => at_operator (hs₁ hplain) hnext rfl
        · exact (h.chainAfter level hwhole).mono (by decide) (by decide)

theorem operand_succ :
    Spends plain mark (n + 1) 4 1 (Expr.Read mark s.floor) (Parser.operand (n + 1)) s := by
  refine .succ (.look_bind ?_)
  split
  · rename_i hpeek
    refine .advance_bind (by rw [hpeek]; exact nofun) fun _ hstart => ?_
    refine .bind ((h.chain _ s.tail).mono (by decide) (Nat.zero_le 1)) fun arg s₁ _ harg => ?_
    refine .pure fun hplain => ?_
    obtain ⟨-, hformed, hplace⟩ := harg hplain
    exact ⟨hformed, .neg (hstart hplain) hplace⟩
  · exact h.compound s

theorem compound_succ :
    Spends plain mark (n + 1) 3 1 (Expr.Read mark s.floor) (Parser.compound (n + 1)) s := by
  have hexpr {rank : Nat} (hrank : 6 ≤ rank) (s' : Stream) :
      Spends plain mark n rank 0 (Expr.Read mark s'.floor) (Parser.expr n) s' :=
    (h.expr s').mono hrank (by decide)
  refine .succ (.look_bind ?_)
  split
  · -- a lambda
    rename_i hpeek
    refine .advance_bind (by rw [hpeek]; exact nofun) fun _ hstart => ?_
    refine .bind .lambdaParams fun params s₁ _ hparams => ?_
    refine .expect_bind nofun fun _ harrow => ?_
    refine .bind (hexpr (by decide) _) fun body s₂ _ hbody => .pure fun hplain => ?_
    obtain ⟨hle, hformed, hparams⟩ := hparams hplain
    obtain ⟨-, hformed', hbody⟩ := hbody hplain
    exact ⟨⟨hformed, hformed'⟩, .lambda (hstart hplain) hle hparams
      (hbody.widen (harrow hplain).le (Nat.le_refl _))⟩
  · -- a block and the expression it is for
    rename_i hpeek
    refine .advance_bind (by rw [hpeek]; exact nofun) fun _ hstart => .laid fun hs => ?_
    refine .bind ((h.block s.tail).mono (by decide) (Nat.zero_le 1)) fun locals s₁ _ hlocals => ?_
    refine .expect_bind nofun fun _ hin => ?_
    refine .bind (hexpr (by decide) _) fun body s₂ _ hbody => .pure fun hplain => ?_
    obtain ⟨hle, hformed, hdecls⟩ := hlocals hplain
    obtain ⟨-, hformed', hbody⟩ := hbody hplain
    exact ⟨⟨hformed, hformed'⟩, .letIn (hstart hplain) hle
      (hdecls.widen (hs hplain).floor_le_tail (Nat.le_refl _))
      (hbody.widen (hin hplain).le (Nat.le_refl _))⟩
  · -- a conditional
    rename_i hpeek
    refine .advance_bind (by rw [hpeek]; exact nofun) fun _ hstart => ?_
    refine .bind (hexpr (by decide) _) fun test s₁ _ htest => ?_
    refine .bind (.skipSemiBefore _) fun _ s₂ _ hsemi => ?_
    refine .expect_bind nofun fun _ hthen => ?_
    refine .bind (hexpr (by decide) _) fun onTrue s₃ _ htrue => ?_
    refine .bind (.skipSemiBefore _) fun _ s₄ _ hsemi' => ?_
    refine .expect_bind nofun fun _ helse => ?_
    refine .bind (hexpr (by decide) _) fun onFalse s₅ _ hfalse => .pure fun hplain => ?_
    obtain ⟨-, hformed, htest⟩ := htest hplain
    obtain ⟨-, hformed', htrue⟩ := htrue hplain
    obtain ⟨-, hformed'', hfalse⟩ := hfalse hplain
    have hle := Nat.le_trans (hsemi hplain).1 (hthen hplain).le
    have hle' := Nat.le_trans (hsemi' hplain).1 (helse hplain).le
    exact ⟨⟨hformed, hformed', hformed''⟩, .cond (hstart hplain) htest
      (htrue.widen hle (Nat.le_refl _)) (hfalse.widen hle' (Nat.le_refl _))⟩
  · -- alternatives are skipped, and so are the statements of the next form
    rename_i hpeek
    refine .passed (.advance_bind (by rw [hpeek]; exact nofun) fun _ hstart => ?_)
    refine .bind (hexpr (by decide) _) fun scrutinee s₁ _ hscrutinee => ?_
    refine .expect_bind nofun fun _ hof => ?_
    refine .bind .skipBlock fun _ s₂ _ hblock => ?_
    refine .look_bind (.pure fun hplain hs hpass => ⟨trivial, ?_⟩)
    obtain ⟨hmerge, hwhole⟩ := hpass.merge hs
    rw [hmerge]
    have hle := Nat.le_trans (hof hplain).le (hblock hplain).1
    exact ⟨hwhole, (hscrutinee hplain).2.2.widen (hstart hplain).start_le hle⟩
  · rename_i hpeek
    refine .passed (.advance_bind (by rw [hpeek]; exact nofun) fun _ _ => ?_)
    refine .bind .skipBlock fun _ s₁ _ _ => ?_
    refine .look_bind (.pure fun hplain hs hpass => ⟨trivial, ?_⟩)
    obtain ⟨hmerge, hwhole⟩ := hpass.merge hs
    rw [hmerge]
    exact hwhole
  · exact .bind (h.atom s) fun _ s₁ _ hfunc =>
      (h.args fun hplain => (hfunc hplain).2).mono (by decide) (by decide)

theorem args_succ {low func} (hfunc : plain → Expr.Read mark low s func) :
    Spends plain mark (n + 1) 3 0 (Expr.Read mark low) (Parser.args (n + 1) func) s := by
  refine .succ (.look_bind ?_)
  split
  · refine .bind (h.atom s) fun arg s₁ _ harg => ?_
    have happ (hplain : plain) : (Expr.app func arg (func.span.merge arg.span)).Read mark low s₁ :=
      have ⟨hfunc, hplace⟩ := hfunc hplain
      have ⟨_, harg, hplace'⟩ := harg hplain
      ⟨⟨hfunc, harg⟩, .app hplace hplace'⟩
    exact (h.args happ).mono (by decide) (by decide)
  · exact .pure hfunc

theorem atom_succ :
    Spends plain mark (n + 1) 2 1 (Expr.Read mark s.floor) (Parser.atom (n + 1)) s := by
  refine .succ (.laid fun hs => .look_bind ?_)
  cases hpeek : s.peek with
  | varId name =>
    refine .advance_bind (by rw [hpeek]; exact nofun) fun _ hplace => .pure fun hplain => ?_
    have hname := (hs hplain).names.peek
    rw [hpeek] at hname
    exact ⟨hname, hplace hplain⟩
  | conId | int | str =>
    exact .advance_bind (by rw [hpeek]; exact nofun) fun _ hplace => .pure fun hplain =>
      ⟨trivial, hplace hplain⟩
  | punct sign =>
    cases sign with
    | lparen => exact h.paren s
    | lbracket =>
      refine .advance_bind (by rw [hpeek]; exact nofun) fun _ hstart => ?_
      have hlast {elems : List Expr} {s₁ : Stream}
          (helems : plain → s.tail.floor ≤ s₁.floor ∧ ElemsRead mark s.tail.floor s₁ elems) :
          Spends plain mark n 13 0 (Expr.Read mark s.floor) (do
            let stop ← Parser.expect (.punct .rbracket)
            Pure.pure (Expr.list elems (s.here.merge stop))) s₁ := by
        refine .expect_bind nofun fun _ hstop => .pure fun hplain => ⟨trivial, ?_⟩
        obtain ⟨hle, helems⟩ := helems hplain
        exact helems.within_merge (hstart hplain) hle (hstop hplain)
      refine .look_bind ?_
      split
      · exact hlast fun _ => ⟨Nat.le_refl _, trivial⟩
      · have helems := h.elements (s := s.tail) fun _ => Nat.le_refl _
        exact .bind (helems.mono (by decide) (Nat.zero_le 1)) fun _ _ _ helems => hlast helems
    | _ => exact .unexpected _
  | _ => exact .unexpected _

theorem paren_succ :
    Spends plain mark (n + 1) 1 1 (Expr.Read mark s.floor) (Parser.paren (n + 1)) s := by
  refine .succ (.expect_bind nofun fun _ hstart => ?_)
  have hgrouped : Spends plain mark n 12 0 (Expr.Read mark s.floor) (Parser.grouped n s.here) s.tail :=
    (h.grouped hstart).mono (by decide) (by decide)
  refine .look_bind ?_
  split
  · rename_i hpeek
    refine .advance_bind (by rw [hpeek]; exact nofun) fun _ hstop => ?_
    exact .pure fun hplain => ⟨trivial, (hstart hplain).merge (hstop hplain)⟩
  · refine .laid fun hs => .look_bind ?_
    split
    · exact hgrouped
    · rename_i op width hop
      refine .look_bind ?_
      split
      · rename_i hclose
        refine .bind_run (i := 0) rfl ((Stream.Passes.drop (Stream.width_le hop).2).mono
          (Nat.zero_le _)) ?_
        refine .advance_bind ?_ fun _ hstop => ?_
        · rw [Stream.peek_drop, hclose]
          exact nofun
        refine .pure fun hplain => ?_
        have hname : SourceName op.name := (hs hplain).names.operator hop
        have hle := ((hs hplain).operator hop).le
        exact ⟨hname, (hstart hplain).merge ((hstop hplain).widen hle (Nat.le_refl _))⟩
      · split
        · exact hgrouped
        · exact .fail fun hplain => at_operator (hs hplain) hop rfl

theorem grouped_succ {low start} (hstart : plain → start.Between mark low s.floor) :
    Spends plain mark (n + 1) 7 1 (Expr.Read mark low) (Parser.grouped (n + 1) start) s := by
  refine .succ (.bind (h.expr s) fun first s₁ _ hfirst => ?_)
  refine .laid fun hs => .look_bind ?_
  split
  · rename_i hop
    exact .fail fun hplain => at_operator (hs hplain) hop rfl
  · refine .look_bind ?_
    split
    · refine .bind ((h.moreElements s₁).mono (by decide) (Nat.le_refl 0)) fun more s₂ _ hmore => ?_
      refine .expect_bind nofun fun _ hstop => .pure fun hplain => ⟨trivial, ?_⟩
      obtain ⟨hle, -, hfirst⟩ := hfirst hplain
      obtain ⟨hle', hmore⟩ := hmore hplain
      have helems := ElemsBetween.cons hfirst hle hmore hle'
      exact helems.within_merge (hstart hplain) (Nat.le_trans hle hle') (hstop hplain)
    · refine .expect_bind nofun fun _ hstop => .pure fun hplain => ?_
      obtain ⟨-, hformed, hplace⟩ := hfirst hplain
      exact ⟨hformed, hplace.widen (hstart hplain).le (hstop hplain).le⟩

theorem elements_succ {low : Nat} (hlow : plain → low ≤ s.floor) :
    Spends plain mark (n + 1) 7 1 (ElemsRead mark low) (Parser.elements (n + 1)) s := by
  refine .succ (.bind (h.expr s) fun first s₁ _ hfirst => ?_)
  refine .bind ((h.moreElements s₁).mono (by decide) (Nat.le_refl 0)) fun more s₂ _ hmore => ?_
  refine .pure fun hplain => ?_
  obtain ⟨hle, -, hfirst⟩ := hfirst hplain
  obtain ⟨hle', hmore⟩ := hmore hplain
  exact ElemsBetween.widen (.cons hfirst hle hmore hle') (hlow hplain) (Nat.le_refl _)

end

theorem all (n : Nat) : SpendsGrammar plain mark n := by
  induction n with
  | zero => exact zero
  | succ n h =>
    exact {
      block := fun s => .succ (.expect_bind nofun fun _ _ =>
        (h.decls s.tail).mono (by decide) (by decide))
      decls := h.decls_succ
      decl := h.decl_succ
      binding := h.binding_succ
      whereBlock := fun hvalue => h.whereBlock_succ _ hvalue
      expr := h.expr_succ
      chain := fun level s => .succ (.bind (h.operand s) fun _ _ _ hlhs =>
        (h.chainAfter level fun hplain => (hlhs hplain).2).mono (by decide) (by decide))
      chainAfter := fun level _ _ _ hlhs => h.chainAfter_succ _ level hlhs
      operand := h.operand_succ
      compound := h.compound_succ
      args := fun hfunc => h.args_succ _ hfunc
      atom := h.atom_succ
      paren := h.paren_succ
      grouped := fun hstart => h.grouped_succ _ hstart
      elements := fun hlow => h.elements_succ _ hlow
      moreElements := fun s => .succ (.eat_bind nofun
        (fun _ hcomma => (h.elements fun hplain => (hcomma hplain).le).mono (by decide) (by decide))
        (.pure fun _ => trivial)) }

end SpendsGrammar

theorem wholeModule_spends (n : Nat) (s : Stream) :
    Spends plain mark n 1 1
      (fun s' tree => FormedDecls tree.decls ∧ tree.Between mark s.floor s'.floor)
      (wholeModule n) s := by
  refine .passed (.look_bind (.bind .header fun top s₁ _ htop => .laid fun hs₁ => ?_))
  refine .bind ((SpendsGrammar.all n).block s₁) fun decls s₂ _ hdecls => ?_
  refine .look_bind ?_
  split
  · refine .look_bind (.pure fun hplain hs hpass => ?_)
    obtain ⟨hle, hname, hexports, hlow⟩ := htop hplain
    obtain ⟨hle', hformed, hdecls⟩ := hdecls hplain
    obtain ⟨hmerge, hwhole⟩ := hpass.merge hs
    rw [hmerge]
    exact ⟨hformed, hwhole, hname.widen (Nat.le_refl _) hle', hexports.widen (Nat.le_refl _) hle',
      hdecls.widen hlow (Nat.le_refl _)⟩
  · exact .unexpected _

/-- A rule with room to spare does not reach its bound, whatever the tokens. -/
theorem Spends.settled {α rank least} {P : Stream → α → Prop} {p}
    (h : Spends False (fun _ => True) n rank least P p s) (hroom : 12 * s.rest.length + rank ≤ n) :
    p s ≠ .exhausted := by
  intro hexhausted
  have hspent := h nofun
  rw [hexhausted] at hspent
  cases hspent with
  | exhausted hnot => exact hnot hroom

end Lamina.Surface
