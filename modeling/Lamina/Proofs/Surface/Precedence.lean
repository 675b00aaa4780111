import Lamina.Surface.Fixity

/-!
# Trees of operators

A chain of operands with operators between them is the in-order reading of many trees. The fixities
of the operators say which of them is meant (`Respects`). There is at most one such tree: the one
that is built by pushing the operators of the chain, from left to right, as deep into the right edge
of the tree as they go (`build_of_respects`). And there is none exactly if two operators of one
level that do not associate stand in the chain with nothing looser between them
(`exists_respects_iff`).
-/

namespace Lamina.Surface

namespace Fixity

/-- May an operator of the other fixity stand at the top of the left operand? -/
def AllowsLeft (f other : Fixity) : Prop :=
  f.level < other.level ∨ f.level = other.level ∧ f.assoc = .left

/-- May an operator of the other fixity stand at the top of the right operand? -/
def AllowsRight (f other : Fixity) : Prop :=
  f.level < other.level ∨ f.level = other.level ∧ f.assoc = .right

instance (f other : Fixity) : Decidable (f.AllowsLeft other) := inferInstanceAs (Decidable (_ ∨ _))

instance (f other : Fixity) : Decidable (f.AllowsRight other) :=
  inferInstanceAs (Decidable (_ ∨ _))

theorem allowsRight_iff (f other : Fixity) : f.AllowsRight other ↔ f.rightLevel ≤ other.level := by
  unfold AllowsRight rightLevel
  cases hassoc : f.assoc <;> simp
  all_goals omega

/-- Can an operator not stand next to another of the same fixity? -/
def Clashes (f other : Fixity) : Prop := f.assoc = .none ∧ other = f

theorem Clashes.lt_rightLevel {f other : Fixity} (h : f.Clashes other) :
    other.level < f.rightLevel := by
  obtain ⟨hnone, rfl⟩ := h
  unfold rightLevel
  rw [hnone]
  exact Nat.lt_succ_self _

end Fixity

/-- A tree of binary operators over operands. -/
inductive OpTree (ω α : Type)
  | leaf (a : α)
  | node (op : ω) (left right : OpTree ω α)

namespace OpTree

variable {ω α : Type} {t : OpTree ω α} {top op : ω} {next : Fixity}

/-- The operand that the in-order reading starts with. -/
def first : OpTree ω α → α
  | leaf a => a
  | node _ left _ => left.first

/-- The operators of the in-order reading, each with the operand behind it. -/
def rest : OpTree ω α → List (ω × α)
  | leaf _ => []
  | node op left right => left.rest ++ (op, right.first) :: right.rest

/-- The operators from left to right. -/
def ops (t : OpTree ω α) : List ω := t.rest.map Prod.fst

/-- The operator at the top. -/
def top? : OpTree ω α → Option ω
  | leaf _ => none
  | node op _ _ => some op

@[simp]
theorem ops_leaf (a : α) : (leaf a : OpTree ω α).ops = [] := rfl

@[simp]
theorem ops_node (op : ω) (left right : OpTree ω α) :
    (node op left right).ops = left.ops ++ op :: right.ops := by
  simp [ops, rest]

variable (fix : ω → Fixity)

/-- A tree that is nested as the fixities of its operators say. -/
def Respects : OpTree ω α → Prop
  | leaf _ => True
  | node op left right =>
    (∀ top ∈ left.top?, (fix op).AllowsLeft (fix top)) ∧
      (∀ top ∈ right.top?, (fix op).AllowsRight (fix top)) ∧ left.Respects ∧ right.Respects

instance decidableRespects : (t : OpTree ω α) → Decidable (t.Respects fix)
  | leaf _ => isTrue trivial
  | node _ left right =>
    have := decidableRespects left
    have := decidableRespects right
    inferInstanceAs (Decidable (_ ∧ _ ∧ _ ∧ _))

/-- Operators of one level have one fixity. -/
def Uniform (ops : List ω) : Prop :=
  ∀ one ∈ ops, ∀ two ∈ ops, (fix one).level = (fix two).level → fix one = fix two

/-- Two operators clash that do not associate, with nothing looser between them. -/
def Clash (ops : List ω) : Prop :=
  ∃ before one between two after, ops = before ++ one :: (between ++ two :: after) ∧
    (fix one).Clashes (fix two) ∧ ∀ op ∈ between, (fix one).level ≤ (fix op).level

/-- The tree with one more operator and operand at its end. -/
def push : OpTree ω α → ω → α → OpTree ω α
  | leaf b, op, a => node op (leaf b) (leaf a)
  | node top left right, op, a =>
    if (fix top).AllowsRight (fix op) then node top left (right.push op a)
    else node op (node top left right) (leaf a)

/-- The tree with more operators and operands at its end. -/
def pushAll (t : OpTree ω α) (rest : List (ω × α)) : OpTree ω α :=
  rest.foldl (fun t next => t.push fix next.1 next.2) t

/-- The tree of a chain. -/
def build (first : α) (rest : List (ω × α)) : OpTree ω α := (leaf first).pushAll fix rest

variable {fix}

theorem Uniform.subset {ops more} (h : Uniform fix more) (hsub : ops ⊆ more) : Uniform fix ops :=
  fun one hone two htwo => h one (hsub hone) two (hsub htwo)

/-! ## In-order readings -/

theorem first_push (t : OpTree ω α) (op : ω) (a : α) : (t.push fix op a).first = t.first := by
  cases t with
  | leaf b => rfl
  | node top left right =>
    rw [push]
    split <;> rfl

theorem rest_push (t : OpTree ω α) (op : ω) (a : α) :
    (t.push fix op a).rest = t.rest ++ [(op, a)] := by
  induction t with
  | leaf b => rfl
  | node top left right _ ih =>
    rw [push]
    split
    · simp [rest, ih, first_push]
    · simp [rest, first]

theorem pushAll_append (t : OpTree ω α) (rest more : List (ω × α)) :
    t.pushAll fix (rest ++ more) = (t.pushAll fix rest).pushAll fix more :=
  List.foldl_append

theorem reading_pushAll (t : OpTree ω α) (rest : List (ω × α)) :
    (t.pushAll fix rest).first = t.first ∧ (t.pushAll fix rest).rest = t.rest ++ rest := by
  induction rest generalizing t with
  | nil => simp [pushAll]
  | cons next rest ih =>
    obtain ⟨hfirst, hrest⟩ := ih (t.push fix next.1 next.2)
    rw [first_push] at hfirst
    rw [rest_push, List.append_assoc] at hrest
    exact ⟨hfirst, hrest⟩

/-- The tree of a chain has the chain as its reading. -/
theorem reading_build (first : α) (rest : List (ω × α)) :
    (build fix first rest).first = first ∧ (build fix first rest).rest = rest :=
  reading_pushAll (leaf first) rest

/-! ## Uniqueness -/

/-- No operator is looser than the one at the top. -/
theorem Respects.level_top_le (h : t.Respects fix) (htop : top ∈ t.top?) (hop : op ∈ t.ops) :
    (fix top).level ≤ (fix op).level := by
  induction t generalizing top with
  | leaf a => cases htop
  | node root left right ihleft ihright =>
    cases htop
    obtain ⟨hleft, hright, hrleft, hrright⟩ := h
    rw [ops_node] at hop
    have hside {t : OpTree ω α} (hops : op ∈ t.ops)
        (ih : ∀ {top}, top ∈ t.top? → op ∈ t.ops → (fix top).level ≤ (fix op).level)
        (hallows : ∀ top ∈ t.top?, (fix root).level ≤ (fix top).level) :
        (fix root).level ≤ (fix op).level := by
      cases t with
      | leaf => cases hops
      | node below _ _ => exact Nat.le_trans (hallows below rfl) (ih rfl hops)
    rcases List.mem_append.mp hop with hop | hop
    · refine hside hop (ihleft hrleft) fun top htop => ?_
      rcases hleft top htop with hlt | ⟨heq, _⟩ <;> omega
    · rcases List.mem_cons.mp hop with rfl | hop
      · exact Nat.le_refl _
      · refine hside hop (ihright hrright) fun top htop => ?_
        rcases hright top htop with hlt | ⟨heq, _⟩ <;> omega

theorem mem_ops_of_top (h : top ∈ t.top?) : top ∈ t.ops := by
  cases t with
  | leaf => cases h
  | node =>
    cases h
    simp

/-- An operator goes on top of a tree whose top does not take it as its right operand. -/
theorem push_stop (h : ∀ top ∈ t.top?, ¬ (fix top).AllowsRight (fix op)) (a : α) :
    t.push fix op a = node op t (leaf a) := by
  cases t with
  | leaf b => rfl
  | node top left right => exact if_neg (h top rfl)

/-- Operators that the top takes as its right operand go there. -/
theorem pushAll_right {left right : OpTree ω α} {rest}
    (h : ∀ next ∈ rest, (fix top).AllowsRight (fix next.1)) :
    (node top left right).pushAll fix rest = node top left (right.pushAll fix rest) := by
  induction rest generalizing right with
  | nil => rfl
  | cons next rest ih =>
    obtain ⟨hnext, hrest⟩ := List.forall_mem_cons.mp h
    have hpush : (node top left right).push fix next.1 next.2 =
        node top left (right.push fix next.1 next.2) := if_pos hnext
    show ((node top left right).push fix next.1 next.2).pushAll fix rest = _
    rw [hpush, ih hrest]
    rfl

/-- What may stand at the top of a right operand may stand anywhere in it. -/
theorem Respects.allowsRight (h : t.Respects fix) {root : ω}
    (hroot : ∀ top ∈ t.top?, (fix root).AllowsRight (fix top)) (hop : op ∈ t.ops) :
    (fix root).AllowsRight (fix op) := by
  cases t with
  | leaf => cases hop
  | node top left right =>
    have hle := h.level_top_le rfl hop
    rw [Fixity.allowsRight_iff]
    exact Nat.le_trans ((Fixity.allowsRight_iff ..).mp (hroot top rfl)) hle

/-- What may stand at the top of a left operand does not take the operator behind it. -/
theorem not_allowsRight_of_allowsLeft (h : (fix op).AllowsLeft (fix top))
    (huniform : (fix op).level = (fix top).level → fix op = fix top) :
    ¬ (fix top).AllowsRight (fix op) := by
  rcases h with hlt | ⟨heq, hassoc⟩
  · rintro (hlt' | ⟨heq, _⟩) <;> omega
  · rw [← huniform heq]
    rintro (hlt | ⟨_, hright⟩)
    · omega
    · rw [hassoc] at hright
      cases hright

/-- **A tree that respects fixities is the one that is built from its reading.** -/
theorem build_of_respects (h : t.Respects fix) (huniform : Uniform fix t.ops) :
    build fix t.first t.rest = t := by
  induction t with
  | leaf a => rfl
  | node op left right ihleft ihright =>
    obtain ⟨hleft, hright, hrleft, hrright⟩ := h
    rw [ops_node] at huniform
    have hbuildLeft := ihleft hrleft (huniform.subset (List.subset_append_left _ _))
    have hbuildRight := ihright hrright (huniform.subset fun o ho =>
      List.mem_append_right _ (List.mem_cons_of_mem op ho))
    have hstop : ∀ top ∈ left.top?, ¬ (fix top).AllowsRight (fix op) := by
      intro top htop
      refine not_allowsRight_of_allowsLeft (hleft top htop) (huniform op (by simp) top ?_)
      exact List.mem_append_left _ (mem_ops_of_top htop)
    have hinside : ∀ next ∈ right.rest, (fix op).AllowsRight (fix next.1) := fun next hnext =>
      hrright.allowsRight hright (List.mem_map_of_mem hnext)
    calc build fix left.first (left.rest ++ (op, right.first) :: right.rest)
        = (build fix left.first left.rest).pushAll fix ((op, right.first) :: right.rest) :=
          pushAll_append ..
      _ = (left.push fix op right.first).pushAll fix right.rest := by
          rw [hbuildLeft]
          rfl
      _ = node op left ((leaf right.first).pushAll fix right.rest) := by
          rw [push_stop hstop, pushAll_right hinside]
      _ = node op left right := congrArg (node op left) hbuildRight

/-! ## Existence -/

theorem Clash.prepend {ops} (h : Clash fix ops) (front : List ω) : Clash fix (front ++ ops) := by
  obtain ⟨before, one, between, two, after, rfl, hclash, hbetween⟩ := h
  exact ⟨front ++ before, one, between, two, after, by simp, hclash, hbetween⟩

theorem Clash.append {ops} (h : Clash fix ops) (back : List ω) : Clash fix (ops ++ back) := by
  obtain ⟨before, one, between, two, after, rfl, hclash, hbetween⟩ := h
  exact ⟨before, one, between, two, after ++ back, by simp, hclash, hbetween⟩

theorem top_push {a : α} (h : top ∈ (t.push fix op a).top?) : top ∈ t.top? ∨ top = op := by
  cases t with
  | leaf b =>
    cases h
    exact .inr rfl
  | node root left right =>
    rw [push] at h
    split at h
    · exact .inl h
    · cases h
      exact .inr rfl

/-- One more operator keeps a tree in order, unless it clashes. -/
theorem respects_push (h : t.Respects fix) (huniform : Uniform fix (t.ops ++ [op]))
    (hclash : ¬ Clash fix (t.ops ++ [op])) (a : α) : (t.push fix op a).Respects fix := by
  induction t with
  | leaf b => exact ⟨nofun, nofun, trivial, trivial⟩
  | node top left right _ ih =>
    have hrespects := h
    obtain ⟨hleft, hright, hrleft, hrright⟩ := h
    have hops : (node top left right).ops ++ [op] =
        (left.ops ++ [top]) ++ (right.ops ++ [op]) := by
      simp
    rw [push]
    split
    · rename_i hallows
      refine ⟨hleft, fun x hx => ?_, hrleft, ?_⟩
      · rcases top_push hx with hx | rfl
        · exact hright x hx
        · exact hallows
      · rw [hops] at huniform hclash
        exact ih hrright (huniform.subset (List.subset_append_right _ _))
          fun h => hclash (h.prepend _)
    · rename_i hallows
      refine ⟨fun x hx => ?_, nofun, hrespects, trivial⟩
      cases hx
      obtain ⟨hge, hne⟩ := not_or.mp hallows
      by_cases hlevel : (fix op).level = (fix top).level
      · have hfix : fix op = fix top := huniform op (by simp) top (by simp) hlevel
        refine .inr ⟨hlevel, ?_⟩
        cases hassoc : (fix op).assoc with
        | left => rfl
        | right => exact absurd ⟨hlevel.symm, by rw [← hfix, hassoc]⟩ hne
        | none =>
          -- the operators behind the top are no looser than it
          refine absurd ⟨left.ops, top, right.ops, op, [], by simp, ⟨?_, hfix⟩, ?_⟩ hclash
          · rw [← hfix, hassoc]
          · exact fun o ho => hrespects.level_top_le rfl (by simp [ho])
      · exact .inl (by omega)

theorem respects_pushAll (h : t.Respects fix) {rest}
    (huniform : Uniform fix (t.ops ++ rest.map Prod.fst))
    (hclash : ¬ Clash fix (t.ops ++ rest.map Prod.fst)) : (t.pushAll fix rest).Respects fix := by
  induction rest generalizing t with
  | nil => exact h
  | cons next rest ih =>
    have hops : t.ops ++ (next :: rest).map Prod.fst =
        (t.push fix next.1 next.2).ops ++ rest.map Prod.fst := by
      simp [ops, rest_push]
    have hfront : t.ops ++ [next.1] = (t.push fix next.1 next.2).ops := by
      simp [ops, rest_push]
    rw [hops] at huniform hclash
    refine ih (respects_push h ?_ ?_ next.2) huniform hclash
    · rw [hfront]
      exact huniform.subset (List.subset_append_left _ _)
    · rw [hfront]
      exact fun h => hclash (h.append _)

/-- Operators that clash stand on one side of an operator between them, or one of them is it, or it
is no looser than they are. -/
theorem Clash.split {front back : List ω} (h : Clash fix (front ++ op :: back)) :
    Clash fix front ∨ Clash fix back ∨ (∃ two ∈ back, (fix op).Clashes (fix two)) ∨
      ∃ one ∈ front, (fix one).assoc = .none ∧ (fix one).level ≤ (fix op).level := by
  obtain ⟨before, one, between, two, after, heq, hclash, hbetween⟩ := h
  rcases List.append_eq_append_iff.mp heq with ⟨more, rfl, hback⟩ | ⟨more, rfl, hfront⟩
  · cases more with
    | nil =>
      cases hback
      exact .inr (.inr (.inl ⟨two, by simp, hclash⟩))
    | cons _ more =>
      cases hback
      exact .inr (.inl ⟨more, one, between, two, after, rfl, hclash, hbetween⟩)
  · cases more with
    | nil =>
      cases hfront
      exact .inr (.inr (.inl ⟨two, by simp, hclash⟩))
    | cons _ more =>
      simp only [List.cons_append, List.cons.injEq] at hfront
      obtain ⟨rfl, hfront⟩ := hfront
      -- the first of the two is in front; where is the second?
      have hlast (hle : (fix one).level ≤ (fix op).level) :
          ∃ one' ∈ before ++ one :: more,
            (fix one').assoc = .none ∧ (fix one').level ≤ (fix op).level :=
        ⟨one, by simp, hclash.1, hle⟩
      rcases List.append_eq_append_iff.mp hfront with ⟨tail, rfl, htwo⟩ | ⟨tail, rfl, htwo⟩
      · cases tail with
        | nil =>
          cases htwo
          exact .inr (.inr (.inr (hlast (Nat.le_of_eq (by rw [hclash.2])))))
        | cons _ tail =>
          cases htwo
          exact .inl ⟨before, one, between, two, tail, rfl, hclash, hbetween⟩
      · cases tail with
        | nil =>
          cases htwo
          exact .inr (.inr (.inr (hlast (Nat.le_of_eq (by rw [hclash.2])))))
        | cons _ tail =>
          cases htwo
          exact .inr (.inr (.inr (hlast (hbetween op (by simp)))))

section

variable {top : ω} {left right : OpTree ω α} (h : (node top left right).Respects fix)
  (huniform : Uniform fix (node top left right).ops)

include h

theorem Respects.not_clashes_right {two : ω} (htwo : two ∈ right.ops) :
    ¬ (fix top).Clashes (fix two) := by
  obtain ⟨_, hright, _, hrright⟩ := h
  rintro ⟨hnone, hfix⟩
  rcases hrright.allowsRight hright htwo with hlt | ⟨_, hassoc⟩
  · rw [hfix] at hlt
    omega
  · rw [hnone] at hassoc
    cases hassoc

include huniform

theorem Respects.not_clashes_left {one : ω} (hone : one ∈ left.ops)
    (hnone : (fix one).assoc = .none) : (fix top).level < (fix one).level := by
  obtain ⟨hleft, _, hrleft, _⟩ := h
  cases left with
  | leaf => cases hone
  | node below _ _ =>
    have hbelow := hrleft.level_top_le rfl hone
    rcases hleft below rfl with hlt | ⟨heq, hassoc⟩
    · omega
    · refine Nat.lt_of_le_of_ne (by omega) fun hlevel => ?_
      have hfix : fix top = fix one := by
        refine huniform top (by simp) one ?_ hlevel
        rw [ops_node]
        exact List.mem_append_left _ hone
      rw [hfix, hnone] at hassoc
      cases hassoc

end

theorem Uniform.left {left right : OpTree ω α} (h : Uniform fix (node top left right).ops) :
    Uniform fix left.ops := by
  rw [ops_node] at h
  exact h.subset (List.subset_append_left _ _)

theorem Uniform.right {left right : OpTree ω α} (h : Uniform fix (node top left right).ops) :
    Uniform fix right.ops := by
  rw [ops_node] at h
  exact h.subset fun o ho => List.mem_append_right _ (List.mem_cons_of_mem top ho)

/-- The operators of a tree that respects fixities do not clash. -/
theorem Respects.not_clash (h : t.Respects fix) (huniform : Uniform fix t.ops) :
    ¬ Clash fix t.ops := by
  induction t with
  | leaf a =>
    rintro ⟨before, one, between, two, after, heq, _⟩
    simp at heq
  | node top left right ihleft ihright =>
    have hrespects := h
    obtain ⟨_, _, hrleft, hrright⟩ := h
    intro hclash
    rw [ops_node] at hclash
    rcases hclash.split with hclash | hclash | ⟨two, htwo, hclash⟩ | ⟨one, hone, hnone, hle⟩
    · exact ihleft hrleft huniform.left hclash
    · exact ihright hrright huniform.right hclash
    · exact hrespects.not_clashes_right htwo hclash
    · exact Nat.not_lt_of_le hle (hrespects.not_clashes_left huniform hone hnone)

/-- **A chain has a tree that respects fixities exactly if its operators do not clash.** -/
theorem exists_respects_iff (first : α) (rest : List (ω × α))
    (huniform : Uniform fix (rest.map Prod.fst)) :
    (∃ t : OpTree ω α, t.first = first ∧ t.rest = rest ∧ t.Respects fix) ↔
      ¬ Clash fix (rest.map Prod.fst) := by
  constructor
  · rintro ⟨t, _, rfl, hrespects⟩
    exact hrespects.not_clash huniform
  · intro hclash
    have hleaf : (leaf first : OpTree ω α).Respects fix := trivial
    have hreading : (build fix first rest).first = first ∧ (build fix first rest).rest = rest :=
      reading_build first rest
    exact ⟨_, hreading.1, hreading.2, respects_pushAll hleaf huniform hclash⟩

/-! ## The first clash -/

/-- The operators up to the first one that clashes with another before it. -/
theorem Clash.exists_first {ops : List ω} (h : Clash fix ops) :
    ∃ front op back, ops = front ++ op :: back ∧ ¬ Clash fix front ∧ Clash fix (front ++ [op]) := by
  -- on the length, since the last operator goes first
  induction hlength : ops.length generalizing ops with
  | zero =>
    obtain ⟨before, one, between, two, after, rfl, _⟩ := h
    simp at hlength
  | succ n ih =>
    have hne : ops ≠ [] := List.ne_nil_of_length_eq_add_one hlength
    obtain ⟨init, last, rfl⟩ : ∃ init last, ops = init ++ [last] :=
      ⟨ops.dropLast, ops.getLast hne, (List.dropLast_concat_getLast hne).symm⟩
    by_cases hinit : Clash fix init
    · obtain ⟨front, op, back, rfl, hfront, hop⟩ := ih hinit (by simpa using hlength)
      exact ⟨front, op, back ++ [last], by simp, hfront, hop⟩
    · exact ⟨init, last, [], rfl, hinit, h⟩

/-- On the right edge of the tree stands an operator that clashes with the one behind the tree, and
those above it are looser. -/
def Blocks (fix : ω → Fixity) : OpTree ω α → ω → Prop
  | leaf _, _ => False
  | node top _ right, op =>
    (fix top).Clashes (fix op) ∨ (fix top).level < (fix op).level ∧ right.Blocks fix op

theorem Blocks.exists_clashes (h : t.Blocks fix op) :
    ∃ one ∈ t.ops, (fix one).Clashes (fix op) := by
  induction t with
  | leaf => cases h
  | node top left right _ ih =>
    rcases h with hclash | ⟨_, h⟩
    · exact ⟨top, by simp, hclash⟩
    · obtain ⟨one, hone, hclash⟩ := ih h
      exact ⟨one, by simp [hone], hclash⟩

theorem blocks_of_clash (h : t.Respects fix) (huniform : Uniform fix (t.ops ++ [op]))
    (hclash : Clash fix (t.ops ++ [op])) : t.Blocks fix op := by
  induction t with
  | leaf b =>
    obtain ⟨before, one, between, two, after, heq, _⟩ := hclash
    have hlength := congrArg List.length heq
    simp at hlength
    omega
  | node top left right _ ih =>
    have hrespects := h
    obtain ⟨_, hright, hrleft, hrright⟩ := h
    have hinside : Uniform fix (node top left right).ops :=
      huniform.subset (List.subset_append_left _ _)
    rw [ops_node, List.append_assoc, List.cons_append] at hclash
    rcases hclash.split with hclash | hclash | ⟨two, htwo, hclash⟩ | ⟨one, hone, hnone, hle⟩
    · exact absurd hclash (hrleft.not_clash hinside.left)
    · have hblocks : right.Blocks fix op := by
        refine ih hrright (huniform.subset fun o ho => ?_) hclash
        rcases List.mem_append.mp ho with ho | ho
        · simp [ho]
        · exact List.mem_append_right _ ho
      obtain ⟨one, hone, hnone, hfix⟩ := hblocks.exists_clashes
      refine .inr ⟨?_, hblocks⟩
      rw [hfix]
      rcases hrright.allowsRight hright hone with hlt | ⟨heq, hassoc⟩
      · exact hlt
      · have htop : fix top = fix one := hinside top (by simp) one (by simp [hone]) heq
        rw [htop, hnone] at hassoc
        cases hassoc
    · rcases List.mem_append.mp htwo with htwo | htwo
      · exact absurd hclash (hrespects.not_clashes_right htwo)
      · rw [List.mem_singleton.mp htwo] at hclash
        exact .inl hclash
    · exact absurd hle (Nat.not_le_of_lt (hrespects.not_clashes_left hinside hone hnone))

/-! ## The right edge -/

/-- The tree ends before an operator of the fixity: none on its right edge takes the operator into
its right operand or clashes with it. -/
def Ends (fix : ω → Fixity) : OpTree ω α → Fixity → Prop
  | leaf _, _ => True
  | node top _ right, next =>
    ¬ (fix top).AllowsRight next ∧ ¬ (fix top).Clashes next ∧ right.Ends fix next

theorem ends_of_lt (h : ∀ op ∈ t.ops, next.level < (fix op).level) : t.Ends fix next := by
  induction t with
  | leaf => trivial
  | node top left right _ ih =>
    have htop := h top (by simp)
    refine ⟨?_, ?_, ih fun op hop => h op (by simp [hop])⟩
    · rintro (hlt | ⟨heq, _⟩) <;> omega
    · rintro ⟨_, rfl⟩
      omega

theorem Respects.le_left {left right : OpTree ω α} (h : (node op left right).Respects fix)
    {level : Nat} (hlevel : level ≤ (fix op).level) :
    ∀ top ∈ left.top?, level ≤ (fix top).level := by
  intro top htop
  rcases h.1 top htop with hlt | ⟨heq, _⟩ <;> omega

theorem Respects.rightLevel_le {left right : OpTree ω α} (h : (node op left right).Respects fix) :
    ∀ top ∈ right.top?, (fix op).rightLevel ≤ (fix top).level :=
  fun top htop => (Fixity.allowsRight_iff ..).mp (h.2.1 top htop)

/-- The right operand of an operator that does not take others of its level ends before them. -/
theorem Respects.ends_right {left right : OpTree ω α} (h : (node top left right).Respects fix)
    (hassoc : (fix top).assoc ≠ .right) (hnext : next.level ≤ (fix top).level) :
    right.Ends fix next := by
  obtain ⟨_, hright, _, hrright⟩ := h
  refine ends_of_lt fun op hop => ?_
  rcases hrright.allowsRight hright hop with hlt | ⟨_, hassoc'⟩
  · omega
  · exact absurd hassoc' hassoc

/-- The left operand of an operator ends before the operator. -/
theorem Respects.ends_left {left right : OpTree ω α} (h : (node op left right).Respects fix)
    (huniform : Uniform fix (node op left right).ops) : left.Ends fix (fix op) := by
  obtain ⟨hleft, _, hrleft, _⟩ := h
  cases left with
  | leaf => trivial
  | node top below right' =>
    have hsame : (fix op).level = (fix top).level → fix op = fix top :=
      huniform op (by simp) top (by simp)
    rcases hleft top rfl with hlt | ⟨heq, hassoc⟩
    · exact ends_of_lt fun o ho => Nat.lt_of_lt_of_le hlt (hrleft.level_top_le rfl ho)
    · refine ⟨not_allowsRight_of_allowsLeft (.inr ⟨heq, hassoc⟩) hsame, ?_, ?_⟩
      · rintro ⟨hnone, -⟩
        rw [← hsame heq, hassoc] at hnone
        cases hnone
      · refine hrleft.ends_right ?_ (Nat.le_of_eq heq)
        rw [← hsame heq, hassoc]
        nofun

end OpTree

end Lamina.Surface
