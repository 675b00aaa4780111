import Lamina.Proofs.Flat.Captures

/-!
# How conversion fails

The walk that finds the lambdas and the rounds that find their captures cover whatever can be met
while a node is written out. So writing out fails for one reason only, a value that is needed for
itself (`expand_failsOnly`), and it does fail if there is one (`Expands.acc`).
-/

namespace Lamina.Flat

open Lamina.Core (NodeId NodeKind Module)
open Conversion (Inlinable room room_child room_inline room_le_walkBound room_inline_le_walkBound)
open Relation (ReflTransGen TransGen)

variable {m : Module} {id value : NodeId} {p : Plan} {scope inlining : List NodeId}

/-- Writing out one node takes writing out another: it owns it and is no lambda, or refers to it by
name and finds no lambda there. -/
inductive Inlines (m : Module) : NodeId → NodeId → Prop
  | child {id child} (hlambda : ∀ scope body, m.kind id ≠ .lambda scope body)
      (hchild : child ∈ (m.kind id).children) : Inlines m id child
  | reference {id target} (hkind : m.kind id = .indirection target)
      (htarget : ∀ scope body, m.kind target ≠ .lambda scope body) : Inlines m id target

/-- A node leads to a value that is needed for itself. -/
structure Looped (m : Module) (id value : NodeId) : Prop where
  named : ∃ user, m.kind user = .indirection value
  reached : ReflTransGen (Inlines m) id value
  again : TransGen (Inlines m) value value

theorem Looped.of_inlines {next : NodeId} (hnext : Inlines m id next) (h : Looped m next value) :
    Looped m id value :=
  ⟨h.named, h.reached.head hnext, h.again⟩

/-! ## What a plan provides for -/

/-- A plan provides for the definitions: their lambdas are functions, and so are the lambdas that
their values lead to; and no lambda captures what it does not mention. -/
structure Plan.Whole (p : Plan) : Prop where
  formed : ∀ {id}, id < p.module.graph.size → p.module.kind id ≠ .noForm
  captures : ∀ {id x}, x ∈ p.captures.of id → Mentions p.module id x
  closed : ∀ {id}, p.module.isDefinition id → ∀ x, ¬ Mentions p.module id x
  slot : ∀ {id scope body}, p.module.isDefinition id →
    p.module.kind id = .lambda scope body → ∃ slot, p.slot? id = some slot
  value : ∀ {id node scope body}, p.module.isDefinition id →
    (∀ scope body, p.module.kind id ≠ .lambda scope body) → Leads p.module id node →
    p.module.kind node = .lambda scope body → node ∈ p.nodes

/-- A plan provides for a node in a function with the parameters `scope`. -/
structure Plan.Provides (p : Plan) (scope : List NodeId) (id : NodeId) : Prop where
  lt_size : id < p.module.graph.size
  params : ∀ {x}, Mentions p.module id x → x ∈ scope
  lambdas : ∀ {node params body}, Leads p.module id node →
    p.module.kind node = .lambda params body → node ∈ p.nodes

section

variable {p : Plan} {scope : List NodeId} {id next : NodeId}

theorem Plan.Provides.evaluated (shaped : p.module.Shaped) (h : p.Provides scope id)
    (hnext : next ∈ evaluated p.module id) : p.Provides scope next :=
  ⟨evaluated_lt shaped hnext, fun hx => h.params (.step hnext hx),
    fun hleads hkind => h.lambdas (hleads.head hnext) hkind⟩

/-- What is needed to write out a node is provided for with it. -/
theorem Plan.Provides.inlines (whole : p.Whole) (shaped : p.module.Shaped) (h : p.Provides scope id)
    (hnext : Inlines p.module id next) : p.Provides scope next := by
  cases hnext with
  | child hlambda hchild =>
    apply h.evaluated shaped
    unfold Flat.evaluated
    cases hkind : p.module.kind id with
    | lambda params body => exact absurd hkind (hlambda params body)
    | application func arg => simpa [hkind, NodeKind.children] using hchild
    | conditional test onTrue onFalse => simpa [hkind, NodeKind.children] using hchild
    | _ => simp [hkind, NodeKind.children] at hchild
  | reference hkind htarget =>
    by_cases hdefinition : p.module.isDefinition next = true
    · -- a definition mentions nothing, so it fits into any function
      exact ⟨shaped.target_lt hkind, fun hx => absurd hx (whole.closed hdefinition _),
        fun hleads hlambda => whole.value hdefinition htarget hleads hlambda⟩
    · exact h.evaluated shaped (by simp [Flat.evaluated, hkind, hdefinition])

theorem requireScoped_of_subset {ids} (h : ids ⊆ scope) : requireScoped m scope ids = .ok () := by
  induction ids with
  | nil => rfl
  | cons id rest ih =>
    obtain ⟨hid, hrest⟩ := List.cons_subset.mp h
    rw [requireScoped, if_pos (List.contains_iff_mem.mpr hid)]
    exact ih hrest

/-- The closure of a lambda that is provided for can be made. -/
theorem expandLambda_provided (whole : p.Whole) {params body : NodeId} (h : p.Provides scope id)
    (hkind : p.module.kind id = .lambda params body) : ∃ t, expandLambda p scope id = .ok t := by
  obtain ⟨function, hfunction⟩ : ∃ function, p.function? id = some function :=
    exists_lastIndex (h.lambdas .refl hkind)
  have hscope : requireScoped p.module scope (p.captures.of id) = .ok () :=
    requireScoped_of_subset fun x hx => h.params (whole.captures hx)
  unfold expandLambda
  rw [hfunction, hscope]
  exact ⟨_, rfl⟩

end

/-! ## Failing for one reason only -/

/-- The only errors are those about values with a property. -/
def FailsOnly {α : Type} (m : Module) (about : NodeId → Prop) (r : Except ConvertError α) : Prop :=
  ∀ e, r = .error e → ∃ id, e = .cyclicValue (m.label id) ∧ about id

namespace FailsOnly

variable {α β : Type} {m : Module} {about : NodeId → Prop} {r : Except ConvertError α}
  {f : α → Except ConvertError β}

theorem of_ok {a : α} (h : r = .ok a) : FailsOnly m about r := by
  intro e he
  rw [h] at he
  cases he

theorem imp {other} (himp : ∀ id, about id → other id) (h : FailsOnly m about r) :
    FailsOnly m other r := by
  intro e he
  obtain ⟨id, hmessage, hid⟩ := h e he
  exact ⟨id, hmessage, himp id hid⟩

theorem bind (h : FailsOnly m about r) (hf : ∀ a, FailsOnly m about (f a)) :
    FailsOnly m about (r >>= f) := by
  cases r with
  | error e =>
    intro e' he'
    cases he'
    exact h e rfl
  | ok a => exact hf a

theorem map (h : FailsOnly m about r) (f : α → β) : FailsOnly m about (r.map f) :=
  match r with
  | .error e => fun _ he => by cases he; exact h e rfl
  | .ok _ => of_ok rfl

theorem mapM {as : List α} (h : ∀ a ∈ as, FailsOnly m about (f a)) :
    FailsOnly m about (as.mapM f) := by
  induction as with
  | nil => exact of_ok rfl
  | cons a rest ih =>
    rw [List.mapM_cons]
    obtain ⟨ha, hrest⟩ := List.forall_mem_cons.mp h
    exact ha.bind fun b => (ih hrest).bind fun bs => of_ok rfl

end FailsOnly

/-- A use by name of what is provided for fails only for a value that is being written out. -/
theorem expandReference_failsOnly (whole : p.Whole) {target inline about}
    (htarget : p.module.isDefinition target = true ∨ p.Provides scope target)
    (hlt : target < p.module.graph.size)
    (hinline : (∀ params body, p.module.kind target ≠ .lambda params body) → target ∉ inlining →
      FailsOnly p.module about (inline target))
    (hloop : (∀ params body, p.module.kind target ≠ .lambda params body) → target ∈ inlining →
      about target) :
    FailsOnly p.module about (expandReference p scope inlining inline target) := by
  have hvalue : (∀ params body, p.module.kind target ≠ .lambda params body) →
      FailsOnly p.module about (if inlining.contains target then
        .error (.cyclicValue (p.module.label target)) else (inline target).map Term.inlined) := by
    intro hkind
    split
    · rename_i hmem
      intro e he
      cases he
      exact ⟨target, rfl, hloop hkind (List.contains_iff_mem.mp hmem)⟩
    · rename_i hnew
      exact (hinline hkind fun hmem => hnew (List.contains_iff_mem.mpr hmem)).map _
  unfold expandReference
  cases hkind : p.module.kind target with
  | placeholder =>
    -- a parameter that is used by name is one of the function
    have hmem : target ∈ scope := by
      rcases htarget with hdefinition | hprovides
      · exact absurd (.here hkind) (whole.closed hdefinition target)
      · exact hprovides.params (.here hkind)
    simp only
    rw [requireScoped_of_subset (List.cons_subset.mpr ⟨hmem, List.nil_subset _⟩)]
    exact .of_ok rfl
  | lambda params body =>
    simp only
    cases hslot : p.slot? target with
    | some slot => exact .of_ok rfl
    | none =>
      rcases htarget with hdefinition | hprovides
      · obtain ⟨slot, hsome⟩ := whole.slot hdefinition hkind
        rw [hslot] at hsome
        cases hsome
      · obtain ⟨t, ht⟩ := expandLambda_provided whole hprovides hkind
        exact .of_ok ht
  | intrinsic op => exact .of_ok rfl
  | noForm => exact absurd hkind (whole.formed hlt)
  | constructor name => exact hvalue (by simp [hkind])
  | indirection other => exact hvalue (by simp [hkind])
  | application func arg => exact hvalue (by simp [hkind])
  | literal value => exact hvalue (by simp [hkind])
  | conditional test onTrue onFalse => exact hvalue (by simp [hkind])

/-- With room for the nesting, writing out a node that is provided for fails only if it leads to a
value that is needed for itself. The values that are being written out all need the node. -/
theorem expand_failsOnly (whole : p.Whole) (shaped : p.module.Shaped) {fuel : Nat}
    (h : p.Provides scope id) (hinl : Inlinable p.module inlining)
    (hroom : room p.module inlining id ≤ fuel)
    (hneeds : ∀ value ∈ inlining, ReflTransGen (Inlines p.module) value id) :
    FailsOnly p.module (Looped p.module id) (expand p scope fuel inlining id) := by
  induction fuel generalizing inlining id with
  | zero =>
    unfold room at hroom
    omega
  | succ fuel ih =>
    have hchild : ∀ {child}, Inlines p.module id child →
        child ∈ (p.module.kind id).children →
        FailsOnly p.module (Looped p.module id) (expand p scope fuel inlining child) := by
      intro child hnext hmem
      have hless := room_child shaped inlining hmem
      exact (ih (h.inlines whole shaped hnext) hinl (by omega)
        fun value hvalue => (hneeds value hvalue).tail hnext).imp fun _ => .of_inlines hnext
    cases hkind : p.module.kind id with
    | noForm => exact absurd hkind (whole.formed h.lt_size)
    | literal value =>
      cases value <;> exact .of_ok (by rw [expand, hkind])
    | constructor name => exact .of_ok (by rw [expand, hkind])
    | intrinsic op => exact .of_ok (by rw [expand, hkind])
    | placeholder =>
      have hmem : id ∈ scope := h.params (.here hkind)
      rw [expand, hkind]
      simp only
      rw [requireScoped_of_subset (List.cons_subset.mpr ⟨hmem, List.nil_subset _⟩)]
      exact .of_ok rfl
    | lambda params body =>
      obtain ⟨t, ht⟩ := expandLambda_provided whole h hkind
      exact .of_ok (by rw [expand, hkind]; exact ht)
    | indirection target =>
      rw [expand, hkind]
      have htarget : p.module.isDefinition target = true ∨ p.Provides scope target := by
        by_cases hdefinition : p.module.isDefinition target = true
        · exact .inl hdefinition
        · exact .inr (h.evaluated shaped (by simp [evaluated, hkind, hdefinition]))
      refine expandReference_failsOnly whole htarget (shaped.target_lt hkind) ?_ ?_
      · intro hlambda hnew
        have hnext : Inlines p.module id target := .reference hkind hlambda
        have hinl' := hinl.cons (shaped.target_lt hkind) hnew
        have hless := room_inline hinl' id
        refine (ih (h.inlines whole shaped hnext) hinl' (by omega) ?_).imp
          fun _ => .of_inlines hnext
        intro value hvalue
        rcases List.mem_cons.mp hvalue with rfl | hold
        · exact .refl
        · exact (hneeds value hold).tail hnext
      · intro hlambda hold
        have hnext : Inlines p.module id target := .reference hkind hlambda
        exact ⟨⟨id, hkind⟩, .single hnext, .tail' (hneeds target hold) hnext⟩
    | application func arg =>
      have hedge : ∀ child ∈ (p.module.kind id).children, Inlines p.module id child :=
        fun child hmem => .child (by simp [hkind]) hmem
      have hfunc : func ∈ (p.module.kind id).children := by simp [hkind, NodeKind.children]
      have harg : arg ∈ (p.module.kind id).children := by simp [hkind, NodeKind.children]
      rw [expand, hkind]
      exact (hchild (hedge func hfunc) hfunc).bind fun _ =>
        (hchild (hedge arg harg) harg).bind fun _ => .of_ok rfl
    | conditional test onTrue onFalse =>
      have hedge : ∀ child ∈ (p.module.kind id).children, Inlines p.module id child :=
        fun child hmem => .child (by simp [hkind]) hmem
      have htest : test ∈ (p.module.kind id).children := by simp [hkind, NodeKind.children]
      have htrue : onTrue ∈ (p.module.kind id).children := by simp [hkind, NodeKind.children]
      have hfalse : onFalse ∈ (p.module.kind id).children := by simp [hkind, NodeKind.children]
      rw [expand, hkind]
      exact (hchild (hedge test htest) htest).bind fun _ =>
        (hchild (hedge onTrue htrue) htrue).bind fun _ =>
          (hchild (hedge onFalse hfalse) hfalse).bind fun _ => .of_ok rfl

/-! ## No value is missed -/

theorem acc_of_leaf (hchildren : (m.kind id).children = [])
    (hreference : ∀ target, m.kind id ≠ .indirection target) :
    Acc (fun next id => Inlines m id next) id := by
  refine ⟨_, fun next hnext => ?_⟩
  cases hnext with
  | child _ hchild =>
    rw [hchildren] at hchild
    cases hchild
  | reference hkind => exact absurd hkind (hreference next)

theorem acc_of_lambda {scope body : NodeId} (hkind : m.kind id = .lambda scope body) :
    Acc (fun next id => Inlines m id next) id := by
  refine ⟨_, fun next hnext => ?_⟩
  cases hnext with
  | child hlambda => exact absurd hkind (hlambda scope body)
  | reference hkind' => simp [hkind] at hkind'

mutual

/-- A node that has a term needs only finitely many others, one after the other. -/
theorem Expands.acc {p scope id t} :
    Expands p scope id t → Acc (fun next id => Inlines p.module id next) id
  | .int hkind => acc_of_leaf (by simp [hkind, NodeKind.children]) (by simp [hkind])
  | .str hkind => acc_of_leaf (by simp [hkind, NodeKind.children]) (by simp [hkind])
  | .con hkind => acc_of_leaf (by simp [hkind, NodeKind.children]) (by simp [hkind])
  | .param hkind _ => acc_of_leaf (by simp [hkind, NodeKind.children]) (by simp [hkind])
  | .prim hkind => acc_of_leaf (by simp [hkind, NodeKind.children]) (by simp [hkind])
  | .closure hkind _ _ => acc_of_lambda hkind
  | .reference hkind htarget => by
    refine ⟨_, fun next hnext => ?_⟩
    cases hnext with
    | child _ hchild => simp [hkind, NodeKind.children] at hchild
    | reference hkind' =>
      cases hkind.symm.trans hkind'
      exact htarget.acc
  | .app hkind hfunc harg => by
    refine ⟨_, fun next hnext => ?_⟩
    cases hnext with
    | child _ hchild =>
      rw [hkind] at hchild
      rcases List.mem_pair.mp hchild with rfl | rfl
      · exact hfunc.acc
      · exact harg.acc
    | reference hkind' => simp [hkind] at hkind'
  | .cond hkind htest htrue hfalse => by
    refine ⟨_, fun next hnext => ?_⟩
    cases hnext with
    | child _ hchild =>
      rw [hkind] at hchild
      simp only [NodeKind.children, List.mem_cons, List.not_mem_nil, or_false] at hchild
      rcases hchild with rfl | rfl | rfl
      · exact htest.acc
      · exact htrue.acc
      · exact hfalse.acc
    | reference hkind' => simp [hkind] at hkind'

theorem Refers.acc {p scope target t} :
    Refers p scope target t → Acc (fun next id => Inlines p.module id next) target
  | .param hkind _ => acc_of_leaf (by simp [hkind, NodeKind.children]) (by simp [hkind])
  | .global hkind _ => acc_of_lambda hkind
  | .closure hkind _ _ => acc_of_lambda hkind
  | .prim hkind => acc_of_leaf (by simp [hkind, NodeKind.children]) (by simp [hkind])
  | .inlined htarget => htarget.acc

end

theorem not_looped_of_acc (h : Acc (fun next id => Inlines m id next) id)
    (hreached : ReflTransGen (Inlines m) id value) : ¬ TransGen (Inlines m) value value := by
  induction h generalizing value with
  | intro id _ ih =>
    intro hagain
    rcases ReflTransGen.cases_head hreached with rfl | ⟨next, hnext, hrest⟩
    · -- the way back starts with an edge, and its end lies on a loop too
      obtain ⟨next, hnext, hrest⟩ := TransGen.head'_iff.mp hagain
      exact ih next hnext hrest hagain
    · exact ih next hnext hrest hagain

/-! ## The plan of a module -/

/-- Where the code of a program starts: at the definition that is run, and at the bodies of the
functions. -/
inductive CodeRoot (m : Module) : NodeId → Prop
  | entry {id : NodeId} (h : m.definition? m.entry = some id) : CodeRoot m id
  | definition {name id scope body} (h : (name, id) ∈ m.definitions)
      (hkind : m.kind id = .lambda scope body) : CodeRoot m body
  | lifted {id scope body} (h : id ∈ liftedOf m (globalsOf m))
      (hkind : m.kind id = .lambda scope body) : CodeRoot m body

section

variable {m : Module} {id scope body entry : NodeId} {name : String}

theorem mem_globalsOf (h : (name, id) ∈ m.definitions) (hkind : m.kind id = .lambda scope body) :
    id ∈ (globalsOf m).map (·.1) :=
  mem_globals_iff.mpr ⟨isDefinition_iff_mem.mpr (List.mem_map_of_mem h), isLambda_of_kind hkind⟩

theorem isDefinition_iff : m.isDefinition id = true ↔ ∃ name, (name, id) ∈ m.definitions := by
  simp [Module.isDefinition, List.any_eq_true]

theorem isDefinition_of_definition? (h : m.definition? name = some id) : m.isDefinition id = true :=
  isDefinition_iff.mpr ⟨name, mem_of_lookup h⟩

/-- The plan of a lowered module provides for its definitions. -/
theorem planOf_whole (regular : Regular m) : (planOf m false).1.Whole := by
  obtain ⟨_, _, wellFormed⟩ := regular.wellFormed
  exact {
    formed := wellFormed.formed
    captures := (capturesOf_settles regular.shaped (liftedOf m (globalsOf m))).1.mentions _ _
    closed := fun hdefinition _ => regular.closed hdefinition
    slot := by
      intro id scope body hdefinition hkind
      obtain ⟨name, hname⟩ := isDefinition_iff.mp hdefinition
      exact exists_lastIndex (mem_globalsOf hname hkind)
    value := fun hdefinition _ => mem_nodes_of_leads regular (.of_isDefinition hdefinition) }

/-- The plan provides for the body of each function. -/
theorem planOf_provides (regular : Regular m) (hid : id ∈ (planOf m false).1.nodes)
    (hkind : m.kind id = .lambda scope body) :
    (planOf m false).1.Provides ((planOf m false).1.captures.of id ++ m.params id) body := by
  have hchild : body ∈ (m.kind id).children := by simp [hkind, NodeKind.children]
  have hreached := ((mem_nodes_iff_reached regular).mp hid).2.followed
    (mem_followed_iff.mpr (.inl hchild))
  refine ⟨regular.shaped.child_lt hchild, ?_, mem_nodes_of_leads regular hreached⟩
  intro x hx
  by_cases hown : x ∈ m.params id
  · exact List.mem_append_right _ hown
  · exact List.mem_append_left _ ((mem_captures_iff regular hid).mpr (.lambda hkind hx hown))

theorem codeRoot_of_mem_nodes (hid : id ∈ (planOf m false).1.nodes)
    (hkind : m.kind id = .lambda scope body) : CodeRoot m body := by
  rcases List.mem_append.mp hid with hglobal | hlifted
  · obtain ⟨name, hname⟩ := isDefinition_iff.mp (mem_globals_iff.mp hglobal).1
    exact .definition hname hkind
  · exact .lifted hlifted hkind

/-- There is no outline only if some code leads to a value that is needed for itself. -/
theorem outline_failsOnly (regular : Regular m) (hentry : m.definition? m.entry = some entry) :
    FailsOnly m (fun value => ∃ root, CodeRoot m root ∧ Looped m root value)
      ((planOf m false).1.outline entry) := by
  obtain ⟨_, _, wellFormed⟩ := regular.wellFormed
  have whole := planOf_whole regular
  have hdefinition := isDefinition_of_definition? hentry
  have hlt : entry < m.graph.size := by
    have hreserves := wellFormed.definition (isDefinition_iff_mem.mp hdefinition)
    rw [← wellFormed.recorded.replay, Core.History.size_replay]
    exact hreserves.lt
  unfold Plan.outline
  refine FailsOnly.bind (.mapM ?_) fun routines => .bind ?_ fun main => .of_ok rfl
  · intro part hpart
    have hid : part.1 ∈ (planOf m false).1.nodes := by
      rw [← Plan.parts_nodes]
      exact List.mem_map_of_mem hpart
    obtain ⟨scope, body, hkind⟩ : ∃ scope body, m.kind part.1 = .lambda scope body := by
      have hlambda := ((mem_nodes_iff_reached regular).mp hid).1
      unfold isLambda at hlambda
      split at hlambda
      · exact ⟨_, _, by assumption⟩
      · cases hlambda
    have hbody := expand_failsOnly whole regular.shaped (planOf_provides regular hid hkind)
      (Inlinable.nil _) (room_le_walkBound _ _) (by simp)
    unfold Plan.routine
    rw [show (planOf m false).1.module.kind part.1 = .lambda scope body from hkind]
    exact (hbody.imp fun value hvalue => ⟨body, codeRoot_of_mem_nodes hid hkind, hvalue⟩).map _
  · refine expandReference_failsOnly whole (.inl hdefinition) hlt ?_ (by simp)
    intro hvalue _
    have hprovides : (planOf m false).1.Provides [] entry :=
      ⟨hlt, fun hx => absurd hx (whole.closed hdefinition _),
        fun hleads hlambda => whole.value hdefinition hvalue hleads hlambda⟩
    have hinl : Inlinable m [entry] := (Inlinable.nil m).cons hlt (by simp)
    refine (expand_failsOnly whole regular.shaped hprovides hinl (room_inline_le_walkBound hinl)
      ?_).imp fun value hvalue => ⟨entry, .entry hentry, hvalue⟩
    intro value hmem
    rw [List.mem_singleton.mp hmem]

/-- If there is an outline, no code leads to a value that is needed for itself. -/
theorem not_looped_of_outline {o : Outline} (hentry : m.definition? m.entry = some entry)
    (h : o.Covers (planOf m false).1 entry) {root value : NodeId} (hroot : CodeRoot m root)
    (hreached : ReflTransGen (Inlines m) root value) : ¬ TransGen (Inlines m) value value := by
  have hbody : ∀ {id scope body}, id ∈ (planOf m false).1.nodes →
      m.kind id = .lambda scope body → Acc (fun next id => Inlines m id next) body := by
    intro id scope body hid hkind
    obtain ⟨i, hi⟩ := exists_lastIndex hid
    obtain ⟨r, _, hr⟩ := h.routine hi
    obtain ⟨_, _, hkind', hexpands⟩ := hr.body
    cases hkind.symm.trans hkind'
    exact hexpands.acc
  refine not_looped_of_acc ?_ hreached
  cases hroot with
  | entry hentry' =>
    cases hentry.symm.trans hentry'
    exact h.main.acc
  | definition hname hkind =>
    exact hbody (List.mem_append_left _ (mem_globalsOf hname hkind)) hkind
  | lifted hid hkind => exact hbody (List.mem_append_right _ hid) hkind

/-- If there is something to run, the only error is a value that is needed for itself. -/
theorem outlineOf_error (regular : Regular m) (hentry : m.definition? m.entry = some entry) {e}
    (he : outlineOf m = .error e) :
    ∃ root value, CodeRoot m root ∧ Looped m root value ∧ e = .cyclicValue (m.label value) := by
  simp only [outlineOf, hentry] at he
  obtain ⟨value, hmessage, root, hroot, hlooped⟩ :=
    outline_failsOnly regular hentry e he
  exact ⟨root, value, hroot, hlooped, hmessage⟩

/-- There is an outline if and only if there is something to run and no code leads to a value that
is needed for itself. -/
theorem outlineOf_ok_iff (regular : Regular m) :
    (∃ o, outlineOf m = .ok o) ↔ (∃ entry, m.definition? m.entry = some entry) ∧
      ¬ ∃ root value, CodeRoot m root ∧ ReflTransGen (Inlines m) root value ∧
        TransGen (Inlines m) value value := by
  constructor
  · rintro ⟨o, ho⟩
    obtain ⟨entry, hentry, hcovers⟩ := outlineOf_covers ho
    refine ⟨⟨entry, hentry⟩, ?_⟩
    rintro ⟨root, value, hroot, hreached, hagain⟩
    exact not_looped_of_outline hentry hcovers hroot hreached hagain
  · rintro ⟨⟨entry, hentry⟩, hnone⟩
    cases ho : outlineOf m with
    | ok o => exact ⟨o, rfl⟩
    | error e =>
      obtain ⟨root, value, hroot, hlooped, _⟩ := outlineOf_error regular hentry ho
      exact absurd ⟨root, value, hroot, hlooped.reached, hlooped.again⟩ hnone

end

/-! ## The bounds on loops -/

open Conversion (Saturates headOp_of_application saturated? saturated_saturates node node_eq)

theorem saturates_unique {func arg r other} (h : Saturates m func arg r)
    (h' : Saturates m func arg other) : r = other := by
  cases h with
  | one hop harity =>
    cases h' with
    | one hop' =>
      cases hop.symm.trans hop'
      rfl
    | two hfunc' =>
      rw [headOp_of_application hfunc'] at hop
      cases hop
    | none hone' => exact absurd harity (hone' _ hop)
  | two hfunc hop harity =>
    cases h' with
    | one hop' =>
      rw [headOp_of_application hfunc] at hop'
      cases hop'
    | two hfunc' hop' =>
      cases hfunc.symm.trans hfunc'
      cases hop.symm.trans hop'
      rfl
    | none _ htwo' => exact absurd harity (htwo' _ _ _ hfunc hop)
  | none hone htwo =>
    cases h' with
    | one hop' harity' => exact absurd harity' (hone _ hop')
    | two hfunc' hop' harity' => exact absurd harity' (htwo _ _ _ hfunc' hop')
    | none => rfl

/-- The loops of a conversion end before their bounds are reached: larger bounds change nothing. -/
structure BoundsSuffice (p : Plan) : Prop where
  /-- The walk that finds the lambdas. -/
  walk : ∀ (globals : List (NodeId × String)) (lifted : List NodeId) (start : NodeId) (more : Nat),
    collect p.module globals (walkBound p.module + more) start ⟨lifted, []⟩ =
      collect p.module globals (walkBound p.module) start ⟨lifted, []⟩
  /-- The rounds that find the captures. -/
  rounds : ∀ (lifted : List NodeId) (more : Nat),
    captureRounds p.module lifted (lifted.length * p.module.graph.size + 2 + more) 0
      (lifted.map (·, [])) = capturesOf p.module lifted
  /-- The search for the intrinsic that an application calls. -/
  spine : ∀ (id func arg : NodeId) (more : Nat), p.module.kind id = .application func arg →
    saturated? p.module (p.module.graph.size + 1 + more) id [] =
      saturated? p.module (p.module.graph.size + 1) id []
  /-- The walk that makes the code of a function. -/
  body : ∀ (scope : List NodeId) (id : NodeId) (dst : Var) (st : ConvertState) (more : Nat),
    node p scope (walkBound p.module + more) [] id dst st =
      node p scope (walkBound p.module) [] id dst st
  /-- The walk that makes the code of a value that is run. -/
  value : ∀ (id : NodeId) (dst : Var) (st : ConvertState) (more : Nat),
    id < p.module.graph.size → node p [] (walkBound p.module + more) [id] id dst st =
      node p [] (walkBound p.module) [id] id dst st

theorem boundsSuffice (shaped : p.module.Shaped) : BoundsSuffice p where
  walk := by
    intro globals lifted start more
    have hinl : Inlinable p.module (⟨lifted, []⟩ : Found).entered := Inlinable.nil p.module
    have hroom := room_le_walkBound p.module start
    exact (collect_collects shaped hinl (Nat.le_add_right_of_le hroom)).unique
      (collect_collects shaped hinl hroom)
  rounds := fun lifted more => (capturesOf_settles shaped lifted).2.2 more
  spine := by
    intro id func arg more hkind
    have hfunc : func ∈ (p.module.kind id).children := by simp [hkind, NodeKind.children]
    -- the application and its function are two nodes, so the bound is at least three
    have htwo : ∀ a b n : Nat, a < n → b < n → a ≠ b → 2 ≤ n := by omega
    have hne : id ≠ func := by
      rintro rfl
      exact Nat.lt_irrefl _ (shaped.rank_child hfunc)
    have hid : id < p.module.graph.size := by
      refine Nat.lt_of_not_le fun hle => ?_
      rw [Module.kind_of_size_le hle] at hkind
      cases hkind
    have hsize := htwo id func _ hid (shaped.child_lt hfunc) hne
    obtain ⟨k, hk⟩ : ∃ k, p.module.graph.size + 1 = k + 3 :=
      ⟨p.module.graph.size - 2, by omega⟩
    rw [hk, show k + 3 + more = k + more + 3 by omega]
    exact saturates_unique (saturated_saturates hkind _) (saturated_saturates hkind _)
  body := by
    intro scope id dst st more
    have hroom := room_le_walkBound p.module id
    rw [node_eq shaped scope (Inlinable.nil _) (Nat.le_add_right_of_le hroom) hroom,
      node_eq shaped scope (Inlinable.nil _) hroom hroom]
  value := by
    intro id dst st more hlt
    have hinl : Inlinable p.module [id] := (Inlinable.nil p.module).cons hlt (by simp)
    have hroom := room_inline_le_walkBound hinl
    rw [node_eq shaped [] hinl (Nat.le_add_right_of_le hroom) hroom,
      node_eq shaped [] hinl hroom hroom]

end Lamina.Flat
