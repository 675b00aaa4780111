import Lamina.Proofs.Core.WellFormed
import Lamina.Proofs.Flat.Collect

/-!
# The order in which lambdas are found

The walk that collects the lambdas stops for three reasons: a lambda was found before, a local value
was entered before in the walk of the same definition, or a name leads to a definition. Here it is
set against a plain depth-first walk (`Discovers`), which stops for one: the node was seen before.
The lambdas that are lifted are those that the plain walk meets, in that order
(`liftedOf_discovers`). So the functions of a program are the lambdas that its definitions lead to
(`mem_nodes_iff_reached`).
-/

namespace Lamina.Flat

open Lamina.Core (NodeId NodeKind Module History LoweredModule)

/-! ## Depth-first walks -/

/-- A left-to-right depth-first walk over the edges in `next`, from the nodes that have been seen
and those that are still to be met to all that are seen in the end, in the order of their discovery.
What a new node leads to comes before all that was to be met already. -/
inductive Discovers (next : NodeId → List NodeId) : List NodeId → List NodeId → List NodeId → Prop
  | done {seen} : Discovers next seen [] seen
  | skip {seen rest after id} (hseen : id ∈ seen) (hrest : Discovers next seen rest after) :
      Discovers next seen (id :: rest) after
  | visit {seen rest after id} (hnew : id ∉ seen)
      (hrest : Discovers next (seen ++ [id]) (next id ++ rest) after) :
      Discovers next seen (id :: rest) after

namespace Discovers

variable {next : NodeId → List NodeId} {seen pending after : List NodeId} {id : NodeId}

theorem append {middle more} (h : Discovers next seen pending middle)
    (h' : Discovers next middle more after) : Discovers next seen (pending ++ more) after := by
  induction h with
  | done => exact h'
  | skip hseen _ ih => exact .skip hseen (ih h')
  | visit hnew _ ih => exact .visit hnew (List.append_assoc .. ▸ ih h')

theorem subset (h : Discovers next seen pending after) : seen ⊆ after := by
  induction h with
  | done => exact List.Subset.refl _
  | skip _ _ ih => exact ih
  | visit _ _ ih => exact List.Subset.trans (List.subset_append_left _ _) ih

theorem mem_of_pending (h : Discovers next seen pending after) (hid : id ∈ pending) :
    id ∈ after := by
  induction h with
  | done => cases hid
  | skip hseen hrest ih =>
    rcases List.mem_cons.mp hid with rfl | hid
    · exact hrest.subset hseen
    · exact ih hid
  | visit _ hrest ih =>
    rcases List.mem_cons.mp hid with rfl | hid
    · exact hrest.subset (by simp)
    · exact ih (List.mem_append_right _ hid)

theorem nodup (h : Discovers next seen pending after) (hseen : seen.Nodup) : after.Nodup := by
  induction h with
  | done => exact hseen
  | skip _ _ ih => exact ih hseen
  | visit hnew _ ih =>
    exact ih (List.nodup_append_comm.mp (List.nodup_cons.mpr ⟨hnew, hseen⟩))

/-- A node that is new was to be met, or another new node leads to it. -/
theorem source (h : Discovers next seen pending after) (hid : id ∈ after) :
    id ∈ seen ∨ id ∈ pending ∨ ∃ origin ∈ after, origin ∉ seen ∧ id ∈ next origin := by
  induction h with
  | done => exact .inl hid
  | skip _ _ ih =>
    rcases ih hid with hseen | hrest | horigin
    · exact .inl hseen
    · exact .inr (.inl (List.mem_cons_of_mem _ hrest))
    · exact .inr (.inr horigin)
  | @visit seen rest after node hnew hrest ih =>
    rcases ih hid with hseen | hrest' | ⟨origin, horigin, hnot, hedge⟩
    · rcases List.mem_append.mp hseen with hold | hlast
      · exact .inl hold
      · exact .inr (.inl (List.mem_singleton.mp hlast ▸ List.mem_cons_self))
    · rcases List.mem_append.mp hrest' with hedge | hlater
      · exact .inr (.inr ⟨node, hrest.subset (by simp), hnew, hedge⟩)
      · exact .inr (.inl (List.mem_cons_of_mem _ hlater))
    · exact .inr (.inr ⟨origin, horigin, fun hold => hnot (List.mem_append_left _ hold), hedge⟩)

/-- No edge leads out of what was seen, if at first none led but to what was to be met. -/
theorem closed (h : Discovers next seen pending after)
    (hseen : ∀ id ∈ seen, ∀ child ∈ next id, child ∈ seen ∨ child ∈ pending) {child : NodeId}
    (hid : id ∈ after) (hchild : child ∈ next id) : child ∈ after := by
  induction h with
  | done => exact (hseen id hid child hchild).resolve_right List.not_mem_nil
  | skip hknown _ ih =>
    refine ih (fun node hnode other hother => ?_) hid
    rcases hseen node hnode other hother with hold | hpending
    · exact .inl hold
    · rcases List.mem_cons.mp hpending with rfl | hrest
      · exact .inl hknown
      · exact .inr hrest
  | visit hnew _ ih =>
    refine ih (fun node hnode other hother => ?_) hid
    rcases List.mem_append.mp hnode with hold | hlast
    · rcases hseen node hold other hother with hknown | hpending
      · exact .inl (List.mem_append_left _ hknown)
      · rcases List.mem_cons.mp hpending with rfl | hrest
        · exact .inl (by simp)
        · exact .inr (List.mem_append_right _ hrest)
    · rw [List.mem_singleton.mp hlast] at hother
      exact .inr (List.mem_append_left _ hother)

theorem reached (h : Discovers next seen pending after) (hid : id ∈ after) :
    id ∈ seen ∨ ∃ start ∈ pending, Relation.ReflTransGen (fun a b => b ∈ next a) start id := by
  induction h with
  | done => exact .inl hid
  | skip _ _ ih =>
    refine (ih hid).imp_right ?_
    rintro ⟨start, hstart, hpath⟩
    exact ⟨start, List.mem_cons_of_mem _ hstart, hpath⟩
  | @visit seen rest after node _ _ ih =>
    rcases ih hid with hseen | ⟨start, hstart, hpath⟩
    · rcases List.mem_append.mp hseen with hold | hlast
      · exact .inl hold
      · exact .inr ⟨node, List.mem_cons_self, List.mem_singleton.mp hlast ▸ .refl⟩
    · rcases List.mem_append.mp hstart with hedge | hrest
      · exact .inr ⟨node, List.mem_cons_self, .head hedge hpath⟩
      · exact .inr ⟨start, List.mem_cons_of_mem _ hrest, hpath⟩

/-- A walk that starts with nothing discovers what edges lead to from where it starts. -/
theorem mem_iff (h : Discovers next [] pending after) :
    id ∈ after ↔ ∃ start ∈ pending, Relation.ReflTransGen (fun a b => b ∈ next a) start id := by
  constructor
  · exact fun hid => (h.reached hid).resolve_left List.not_mem_nil
  · rintro ⟨start, hstart, hpath⟩
    induction hpath with
    | refl => exact h.mem_of_pending hstart
    | tail _ hedge ih => exact h.closed (by simp) ih hedge

end Discovers

/-! ## The edges of a module -/

/-- The nodes that a node leads to: what it owns, and what it refers to unless that is a top-level
definition. -/
def followed (m : Module) (id : NodeId) : List NodeId :=
  match m.kind id with
  | .indirection target => if m.isDefinition target then [] else [target]
  | kind => kind.children

/-- Is this the kind of a function? -/
def isLambda : NodeKind → Bool
  | .lambda .. => true
  | _ => false

/-- A lambda that becomes a function although it is no top-level definition. -/
def isLifted (m : Module) (id : NodeId) : Bool := isLambda (m.kind id) && !m.isDefinition id

section

variable {m : Module} {id child target scope body : NodeId}

theorem followed_of_indirection (hkind : m.kind id = .indirection target) :
    followed m id = if m.isDefinition target then [] else [target] := by
  rw [followed, hkind]

theorem mem_followed_iff : child ∈ followed m id ↔
    m.Owns id child ∨ m.kind id = .indirection child ∧ m.isDefinition child = false := by
  unfold Module.Owns
  cases hkind : m.kind id with
  | indirection target =>
    rw [followed_of_indirection hkind]
    cases hdefinition : m.isDefinition target with
    | true =>
      refine iff_of_false List.not_mem_nil ?_
      rintro (hchild | ⟨heq, hfalse⟩)
      · cases hchild
      · cases heq
        simp [hdefinition] at hfalse
    | false =>
      constructor
      · intro hmem
        obtain rfl := List.mem_singleton.mp hmem
        exact .inr ⟨rfl, hdefinition⟩
      · rintro (hchild | ⟨heq, _⟩)
        · cases hchild
        · cases heq
          exact List.mem_singleton_self _
  | _ => simp [followed, hkind]

theorem globalsOf_eq (m : Module) :
    globalsOf m =
      (m.definitions.filter fun b => isLambda (m.kind b.2)).map fun b => (b.2, b.1) := by
  unfold globalsOf
  induction m.definitions with
  | nil => rfl
  | cons binding rest ih =>
    rw [List.filterMap_cons, List.filter_cons, ih]
    cases hkind : m.kind binding.2 <;> simp [hkind, isLambda]

theorem mem_globals_iff : id ∈ (globalsOf m).map (·.1) ↔
    m.isDefinition id = true ∧ isLambda (m.kind id) = true := by
  rw [globalsOf_eq, List.map_map]
  simp only [List.mem_map, List.mem_filter, Function.comp_apply, Module.isDefinition,
    List.any_eq_true, beq_iff_eq]
  constructor
  · rintro ⟨binding, ⟨hmem, hlambda⟩, rfl⟩
    exact ⟨⟨binding, hmem, rfl⟩, hlambda⟩
  · rintro ⟨⟨binding, hmem, rfl⟩, hlambda⟩
    exact ⟨binding, ⟨hmem, hlambda⟩, rfl⟩

theorem isLambda_of_kind (hkind : m.kind id = .lambda scope body) :
    isLambda (m.kind id) = true := by
  rw [hkind]
  rfl

theorem isLifted_of_not_global (hkind : m.kind id = .lambda scope body)
    (hglobal : id ∉ (globalsOf m).map (·.1)) : isLifted m id = true := by
  have hlambda := isLambda_of_kind hkind
  rw [mem_globals_iff] at hglobal
  simp_all [isLifted]

/-- A definition is among the bindings of the module. -/
theorem isDefinition_iff_mem : m.isDefinition id = true ↔ id ∈ m.definitions.map (·.2) := by
  simp [Module.isDefinition]

end

/-! ## What is owned, and what names lead to -/

section

variable {m : Module} {decls : List Surface.Decl} {history : History}
  (wellFormed : m.WellFormed decls history) {id child origin : NodeId}

include wellFormed

theorem owned_not_definition (h : m.Owns id child) : m.isDefinition child = false := by
  refine Bool.eq_false_iff.mpr fun hdefinition => ?_
  exact wellFormed.owned h (wellFormed.definition (isDefinition_iff_mem.mp hdefinition))

/-- A name that leads to code of its own leads to a reserved node. -/
theorem reserves_of_target {target : NodeId} (hkind : m.kind id = .indirection target)
    (hlocal : NodeKind.isLocalValue (m.kind target) = true) : history.Reserves target := by
  rcases wellFormed.target hkind with ⟨_, op, hop⟩ | hparam | hreserves
  · simp [hop, NodeKind.isLocalValue] at hlocal
  · simp [hparam, NodeKind.isLocalValue] at hlocal
  · exact hreserves

/-- An edge to an owned node with code of its own starts at its owner. -/
theorem owner_of_followed {owner : NodeId} (hedge : child ∈ followed m origin)
    (howns : m.Owns owner child) (hlocal : NodeKind.isLocalValue (m.kind child) = true) :
    origin = owner := by
  rcases mem_followed_iff.mp hedge with howns' | ⟨hkind, _⟩
  · exact wellFormed.forest.single howns' howns
  · exact absurd (reserves_of_target wellFormed hkind hlocal) (wellFormed.owned howns)

theorem definition_not_followed (hdefinition : m.isDefinition id = true) :
    id ∉ followed m origin := by
  intro hedge
  rcases mem_followed_iff.mp hedge with howns | ⟨_, hfalse⟩
  · simp [owned_not_definition wellFormed howns] at hdefinition
  · simp [hfalse] at hdefinition

end

/-! ## Two walks in step -/

/-- Between two steps of the walk of a definition: what it has found, and what the plain walk has
seen. `before` are the nodes that were seen in the walks of earlier definitions. -/
structure InStep (m : Module) (history : History) (before : List NodeId) (found : Found)
    (seen : List NodeId) : Prop where
  lifted : found.lifted = seen.filter (isLifted m)
  before_subset : before ⊆ seen
  before_closed : ∀ {id child}, id ∈ before → child ∈ followed m id → child ∈ before
  /-- Local values that were seen in this walk were entered. -/
  entered : ∀ {id}, id ∈ seen → id ∉ before → history.Reserves id →
    m.isDefinition id = false → NodeKind.isLocalValue (m.kind id) = true → id ∈ found.entered
  /-- A node with code of its own is not seen before its owner. -/
  owner : ∀ {id child}, m.Owns id child → child ∈ seen →
    NodeKind.isLocalValue (m.kind child) = true → id ∈ seen

/-- A node that the walk comes to. -/
structure Arrives (m : Module) (history : History) (before : List NodeId) (found : Found)
    (seen : List NodeId) (id : NodeId) : Prop where
  step : InStep m history before found seen
  fresh : NodeKind.isLocalValue (m.kind id) = true → id ∉ seen
  entered : ∀ node ∈ found.entered, node ∈ seen ∨ node = id
  owner : ∀ {node}, m.Owns node id → node ∈ seen
  global : id ∉ (globalsOf m).map (·.1)
  reserved : history.Reserves id → m.isDefinition id = false →
    NodeKind.isLocalValue (m.kind id) = true → id ∈ found.entered

/-- The plain walk of a node has come to the same end. -/
def Follows (m : Module) (history : History) (before : List NodeId) (after : Found)
    (seen pending : List NodeId) : Prop :=
  ∃ seen', Discovers (followed m) seen pending seen' ∧ InStep m history before after seen' ∧
    ∀ node ∈ after.entered, node ∈ seen'

section

variable {m : Module} {decls : List Surface.Decl} {history : History} {before : List NodeId}
  {found after : Found} {seen : List NodeId} {id : NodeId}

/-- What was seen in earlier walks has no lambda that is new. -/
theorem Collects.lifted_before (h : Collects m (globalsOf m) found id after)
    (hclosed : ∀ {id child}, id ∈ before → child ∈ followed m id → child ∈ before)
    (hid : id ∈ before) (hlifted : ∀ node ∈ before, isLifted m node = true → node ∈ found.lifted) :
    after.lifted = found.lifted ∧ ∀ node ∈ after.entered, node ∈ found.entered ∨ node ∈ before := by
  induction h with
  | known | pass | leaf => exact ⟨rfl, fun _ => .inl⟩
  | lift hkind hglobal hnew _ _ =>
    exact absurd (hlifted _ hid (isLifted_of_not_global hkind hglobal)) hnew
  | application hkind _ _ ihfunc iharg =>
    have hchild : ∀ {child}, child ∈ [_, _] → child ∈ before := fun hmem =>
      hclosed hid (by rw [followed, hkind]; exact hmem)
    obtain ⟨hmiddle, hentered⟩ := ihfunc (hchild (by simp)) hlifted
    obtain ⟨hafter, hentered'⟩ := iharg (hchild (by simp)) (hmiddle ▸ hlifted)
    exact ⟨hafter.trans hmiddle, fun node hnode =>
      (hentered' node hnode).elim (hentered node) .inr⟩
  | conditional hkind _ _ _ ihtest ihtrue ihfalse =>
    have hchild : ∀ {child}, child ∈ [_, _, _] → child ∈ before := fun hmem =>
      hclosed hid (by rw [followed, hkind]; exact hmem)
    obtain ⟨hone, hentered⟩ := ihtest (hchild (by simp)) hlifted
    obtain ⟨htwo, hentered'⟩ := ihtrue (hchild (by simp)) (hone ▸ hlifted)
    obtain ⟨hafter, hentered''⟩ := ihfalse (hchild (by simp)) (htwo ▸ hone ▸ hlifted)
    exact ⟨hafter.trans (htwo.trans hone), fun node hnode => (hentered'' node hnode).elim
      (fun hnode => (hentered' node hnode).elim (hentered node) .inr) .inr⟩
  | @enter found after id target hkind hlocal _ _ _ ih =>
    have htarget : target ∈ before := by
      refine hclosed hid ?_
      rw [followed_of_indirection hkind, hlocal]
      exact List.mem_singleton_self _
    obtain ⟨hafter, hentered⟩ := ih htarget hlifted
    refine ⟨hafter, fun node hnode => ?_⟩
    rcases hentered node hnode with hmem | hmem
    · rcases List.mem_cons.mp hmem with rfl | hold
      · exact .inr htarget
      · exact .inl hold
    · exact .inr hmem

/-- The children of a node are being walked: those in `walked` are done. -/
structure Midway (m : Module) (history : History) (before seen : List NodeId) (id : NodeId)
    (walked : List NodeId) (found : Found) (now : List NodeId) : Prop where
  new : id ∉ seen
  owner : ∀ {node child}, m.Owns node child → child ∈ seen →
    NodeKind.isLocalValue (m.kind child) = true → node ∈ seen
  walk : Discovers (followed m) (seen ++ [id]) walked now
  step : InStep m history before found now
  entered : ∀ node ∈ found.entered, node ∈ now

namespace Midway

variable {walked now : List NodeId} {child : NodeId}

/-- No child has been met before the walk comes to it. -/
theorem fresh (h : Midway m history before seen id walked found now)
    (wellFormed : m.WellFormed decls history) (howns : m.Owns id child) (hwalked : child ∉ walked)
    (hlocal : NodeKind.isLocalValue (m.kind child) = true) : child ∉ now := by
  intro hmem
  rcases h.walk.source hmem with hseen | hmem | ⟨origin, _, hnot, hedge⟩
  · rcases List.mem_append.mp hseen with hold | hlast
    · exact h.new (h.owner howns hold hlocal)
    · obtain rfl := List.mem_singleton.mp hlast
      exact wellFormed.forest.acyclic _ (.single howns)
  · exact hwalked hmem
  · rw [owner_of_followed wellFormed hedge howns hlocal] at hnot
    exact hnot (List.mem_append_right _ (List.mem_singleton_self id))

/-- The walk comes to the next child. -/
theorem arrives (h : Midway m history before seen id walked found now)
    (wellFormed : m.WellFormed decls history) (howns : m.Owns id child) (hwalked : child ∉ walked) :
    Arrives m history before found now child where
  step := h.step
  fresh := h.fresh wellFormed howns hwalked
  entered node hnode := .inl (h.entered node hnode)
  owner howns' := by
    rw [wellFormed.forest.single howns' howns]
    exact h.walk.subset (List.mem_append_right _ (List.mem_singleton_self id))
  global hglobal := by
    have hfalse := owned_not_definition wellFormed howns
    simp [(mem_globals_iff.mp hglobal).1] at hfalse
  reserved hreserves := absurd hreserves (wellFormed.owned howns)

theorem next (h : Midway m history before seen id walked found now)
    (hchild : Follows m history before after now [child]) :
    ∃ later, Midway m history before seen id (walked ++ [child]) after later := by
  obtain ⟨later, hwalk, hstep, hentered⟩ := hchild
  exact ⟨later, h.new, h.owner, h.walk.append hwalk, hstep, hentered⟩

/-- The next child is walked. -/
theorem walk_child (h : Midway m history before seen id walked found now)
    (wellFormed : m.WellFormed decls history) (howns : m.Owns id child) (hwalked : child ∉ walked)
    (hchild : Arrives m history before found now child →
      Follows m history before after now [child]) :
    ∃ later, Midway m history before seen id (walked ++ [child]) after later :=
  h.next (hchild (h.arrives wellFormed howns hwalked))

/-- All children are done, and so is the node. -/
theorem follows (h : Midway m history before seen id walked found now)
    (hwalked : followed m id = walked) : Follows m history before found seen [id] := by
  refine ⟨now, .visit h.new ?_, h.step, h.entered⟩
  rw [List.append_nil, hwalked]
  exact h.walk

end Midway

namespace Arrives

/-- A node with code of its own is visited. -/
theorem visit (h : Arrives m history before found seen id)
    (hlocal : NodeKind.isLocalValue (m.kind id) = true) {lifted}
    (hlifted : lifted = (seen ++ [id]).filter (isLifted m)) :
    Midway m history before seen id [] { found with lifted } (seen ++ [id]) := by
  refine ⟨h.fresh hlocal, h.step.owner, .done, ⟨hlifted,
    List.subset_append_of_subset_left _ h.step.before_subset, h.step.before_closed, ?_, ?_⟩, ?_⟩
  · intro node hnode hnot hreserves hdefinition hvalue
    rcases List.mem_append.mp hnode with hold | hlast
    · exact h.step.entered hold hnot hreserves hdefinition hvalue
    · obtain rfl := List.mem_singleton.mp hlast
      exact h.reserved hreserves hdefinition hvalue
  · intro node child howns hchild hvalue
    refine List.mem_append_left _ ?_
    rcases List.mem_append.mp hchild with hold | hlast
    · exact h.step.owner howns hold hvalue
    · obtain rfl := List.mem_singleton.mp hlast
      exact h.owner howns
  · intro node hnode
    rcases h.entered node hnode with hold | rfl
    · exact List.mem_append_left _ hold
    · exact List.mem_append_right _ (List.mem_singleton_self _)

/-- A node that is no lambda is visited. -/
theorem midway {kind : NodeKind} (h : Arrives m history before found seen id)
    (hkind : m.kind id = kind) (hlocal : NodeKind.isLocalValue kind = true)
    (hlambda : isLambda kind = false) : Midway m history before seen id [] found (seen ++ [id]) := by
  refine h.visit (hkind ▸ hlocal) ?_
  rw [h.step.lifted, List.filter_append]
  simp [isLifted, hkind, hlambda]

/-- A lambda is visited and found. -/
theorem midway_lift {scope body : NodeId} (h : Arrives m history before found seen id)
    (hkind : m.kind id = .lambda scope body) :
    Midway m history before seen id [] { found with lifted := found.lifted ++ [id] }
      (seen ++ [id]) := by
  refine h.visit (by simp [hkind, NodeKind.isLocalValue]) ?_
  rw [h.step.lifted, List.filter_append]
  simp [isLifted_of_not_global hkind h.global]

end Arrives

/-- A node without code of its own is met, or has been met before. -/
theorem InStep.follows_leaf (h : InStep m history before found seen)
    (hentered : ∀ node ∈ found.entered, node ∈ seen ∨ node = id)
    (hvalue : NodeKind.isLocalValue (m.kind id) = false) :
    Follows m history before found seen [id] := by
  by_cases hmem : id ∈ seen
  · refine ⟨seen, .skip hmem .done, h, fun node hnode => ?_⟩
    rcases hentered node hnode with hold | rfl
    · exact hold
    · exact hmem
  have hnone : followed m id = [] := by
    unfold followed
    cases hkind : m.kind id <;> simp_all [NodeKind.isLocalValue, NodeKind.children]
  have hlifted : isLifted m id = false := by
    unfold isLifted
    cases hkind : m.kind id <;> simp_all [NodeKind.isLocalValue, isLambda]
  refine ⟨seen ++ [id], .visit hmem ?_, ⟨?_, ?_, h.before_closed, ?_, ?_⟩, ?_⟩
  · rw [hnone]
    exact .done
  · rw [h.lifted, List.filter_append]
    simp [hlifted]
  · exact List.subset_append_of_subset_left _ h.before_subset
  · intro node hnode hnot hreserves hdefinition hlocal
    rcases List.mem_append.mp hnode with hold | hlast
    · exact h.entered hold hnot hreserves hdefinition hlocal
    · rw [List.mem_singleton.mp hlast, hvalue] at hlocal
      cases hlocal
  · intro node child howns hchild hlocal
    rcases List.mem_append.mp hchild with hold | hlast
    · exact List.mem_append_left _ (h.owner howns hold hlocal)
    · rw [List.mem_singleton.mp hlast, hvalue] at hlocal
      cases hlocal
  · intro node hnode
    rcases hentered node hnode with hold | rfl
    · exact List.mem_append_left _ hold
    · exact List.mem_append_right _ (List.mem_singleton_self _)

/-- What was seen in earlier walks is passed over by the plain walk; the other one finds nothing
new there. -/
theorem InStep.follows_before (h : InStep m history before found seen)
    (hentered : ∀ node ∈ found.entered, node ∈ seen) (hid : id ∈ before)
    (hcollects : Collects m (globalsOf m) { found with entered := id :: found.entered } id after) :
    Follows m history before after seen [id] := by
  have hlifted : ∀ node ∈ before, isLifted m node = true → node ∈ found.lifted := by
    intro node hnode hnew
    rw [h.lifted]
    exact List.mem_filter.mpr ⟨h.before_subset hnode, hnew⟩
  obtain ⟨hsame, hwithin⟩ := hcollects.lifted_before h.before_closed hid hlifted
  have hmore := hcollects.entered_suffix.subset
  refine ⟨seen, .skip (h.before_subset hid) .done,
    ⟨hsame.trans h.lifted, h.before_subset, h.before_closed, ?_, h.owner⟩, fun node hnode => ?_⟩
  · intro node hnode hnot hreserves hdefinition hlocal
    exact hmore (List.mem_cons_of_mem _ (h.entered hnode hnot hreserves hdefinition hlocal))
  · rcases hwithin node hnode with hmem | hmem
    · rcases List.mem_cons.mp hmem with rfl | hold
      · exact h.before_subset hid
      · exact hentered node hold
    · exact h.before_subset hmem

/-- The two walks of a node run in step. -/
theorem Collects.follows (wellFormed : m.WellFormed decls history)
    (h : Collects m (globalsOf m) found id after) :
    ∀ {seen}, Arrives m history before found seen id →
      Follows m history before after seen [id] := by
  induction h with
  | @known found id scope body hkind hknown =>
    intro seen harrives
    -- a lambda that has been found has been seen, and the walk does not come to what was seen
    have hlocal : NodeKind.isLocalValue (m.kind id) = true := by
      simp [hkind, NodeKind.isLocalValue]
    refine absurd ?_ (harrives.fresh hlocal)
    have hlifted := hknown.resolve_left harrives.global
    rw [harrives.step.lifted] at hlifted
    exact List.mem_of_mem_filter hlifted
  | @lift found after id scope body hkind _ _ _ ih =>
    intro seen harrives
    have howns : m.Owns id body := by simp [Module.Owns, hkind, NodeKind.children]
    obtain ⟨now, hdone⟩ :=
      (harrives.midway_lift hkind).walk_child wellFormed howns List.not_mem_nil ih
    exact hdone.follows (by simp [followed, hkind, NodeKind.children])
  | @application found middle after id func arg hkind _ _ ihfunc iharg =>
    intro seen harrives
    have howns : ∀ {child}, child ∈ [func, arg] → m.Owns id child := by
      intro child hchild
      simpa [Module.Owns, hkind, NodeKind.children] using hchild
    have hnodup := wellFormed.forest.nodup id
    simp only [hkind, NodeKind.children] at hnodup
    have hstart := harrives.midway hkind rfl rfl
    obtain ⟨_, hone⟩ := hstart.walk_child wellFormed (howns (by simp)) List.not_mem_nil ihfunc
    obtain ⟨_, htwo⟩ := hone.walk_child wellFormed (howns (by simp)) (by grind) iharg
    exact htwo.follows (by simp [followed, hkind, NodeKind.children])
  | @conditional found one two after id test onTrue onFalse hkind _ _ _ ihtest ihtrue ihfalse =>
    intro seen harrives
    have howns : ∀ {child}, child ∈ [test, onTrue, onFalse] → m.Owns id child := by
      intro child hchild
      simpa [Module.Owns, hkind, NodeKind.children] using hchild
    have hnodup := wellFormed.forest.nodup id
    simp only [hkind, NodeKind.children] at hnodup
    have hstart := harrives.midway hkind rfl rfl
    obtain ⟨_, hone⟩ := hstart.walk_child wellFormed (howns (by simp)) List.not_mem_nil ihtest
    obtain ⟨_, htwo⟩ := hone.walk_child wellFormed (howns (by simp)) (by grind) ihtrue
    obtain ⟨_, hthree⟩ := htwo.walk_child wellFormed (howns (by simp)) (by grind) ihfalse
    exact hthree.follows (by simp [followed, hkind, NodeKind.children])
  | @pass found id target hkind hpass =>
    intro seen harrives
    have hstart := harrives.midway hkind rfl rfl
    by_cases hdefinition : m.isDefinition target = true
    · exact hstart.follows
        (by rw [followed_of_indirection hkind, if_pos hdefinition])
    · -- the target has no code of its own, or it has been entered and so has been seen
      have htarget : Follows m history before found (seen ++ [id]) [target] := by
        rcases hpass.resolve_left hdefinition with hvalue | hentered
        · exact hstart.step.follows_leaf (fun node hnode => .inl (hstart.entered node hnode))
            hvalue
        · exact ⟨_, .skip (hstart.entered target hentered) .done, hstart.step, hstart.entered⟩
      obtain ⟨_, hdone⟩ := hstart.next htarget
      exact hdone.follows
        (by rw [followed_of_indirection hkind, if_neg hdefinition, List.nil_append])
  | @enter found after id target hkind hdefinition hvalue hnew hcollects ih =>
    intro seen harrives
    have hreserves := reserves_of_target wellFormed hkind hvalue
    have hstart := harrives.midway hkind rfl rfl
    have htarget : Follows m history before after (seen ++ [id]) [target] := by
      by_cases hbefore : target ∈ before
      · exact hstart.step.follows_before hstart.entered hbefore hcollects
      -- a local value that was seen in this walk was entered, and this one was not
      refine ih ⟨{ hstart.step with entered := ?_ }, ?_, ?_, ?_, ?_, ?_⟩
      · intro node hnode hnot hres hdef hloc
        exact List.mem_cons_of_mem _ (hstart.step.entered hnode hnot hres hdef hloc)
      · intro _ hseen
        exact hnew (hstart.step.entered hseen hbefore hreserves hdefinition hvalue)
      · intro node hnode
        rcases List.mem_cons.mp hnode with rfl | hold
        · exact .inr rfl
        · exact .inl (hstart.entered node hold)
      · exact fun howns => absurd hreserves (wellFormed.owned howns)
      · intro hglobal
        simp [(mem_globals_iff.mp hglobal).1] at hdefinition
      · exact fun _ _ _ => List.mem_cons_self
    obtain ⟨_, hdone⟩ := hstart.next htarget
    exact hdone.follows
      (by rw [followed_of_indirection hkind, hdefinition]; rfl)
  | @leaf found id hchildren hreference =>
    intro seen harrives
    have hvalue : NodeKind.isLocalValue (m.kind id) = false := by
      cases hkind : m.kind id <;> simp_all [NodeKind.isLocalValue, NodeKind.children]
    exact harrives.step.follows_leaf harrives.entered hvalue

/-! ## The walk over the definitions -/

/-- Between the walks of two definitions. Those in `rest` are still to be walked. -/
structure Between (m : Module) (lifted seen rest : List NodeId) : Prop where
  lifted : lifted = seen.filter (isLifted m)
  closed : ∀ {id child}, id ∈ seen → child ∈ followed m id → child ∈ seen
  owner : ∀ {id child}, m.Owns id child → child ∈ seen →
    NodeKind.isLocalValue (m.kind child) = true → id ∈ seen
  new : ∀ id ∈ rest, id ∉ seen

namespace Between

variable {lifted rest : List NodeId} {root : NodeId}

theorem step (h : Between m lifted seen rest) : InStep m history seen ⟨lifted, []⟩ seen where
  lifted := h.lifted
  before_subset := List.Subset.refl _
  before_closed := h.closed
  entered hid hnot := absurd hid hnot
  owner := h.owner

/-- A definition that is a function is not found itself; its body is walked. -/
theorem midway (h : Between m lifted seen (root :: rest)) (wellFormed : m.WellFormed decls history)
    (hroot : m.isDefinition root = true) :
    Midway m history seen seen root [] ⟨lifted, []⟩ (seen ++ [root]) where
  new := h.new root List.mem_cons_self
  owner := h.owner
  walk := .done
  step := by
    refine ⟨?_, List.subset_append_left _ _, h.closed, ?_, ?_⟩
    · rw [List.filter_append, ← h.lifted]
      simp [isLifted, hroot]
    · intro id hid hnot _ hdefinition _
      obtain rfl := List.mem_singleton.mp ((List.mem_append.mp hid).resolve_left hnot)
      simp [hroot] at hdefinition
    · intro id child howns hchild hlocal
      rcases List.mem_append.mp hchild with hold | hlast
      · exact List.mem_append_left _ (h.owner howns hold hlocal)
      · obtain rfl := List.mem_singleton.mp hlast
        simp [owned_not_definition wellFormed howns] at hroot
  entered _ hnode := by cases hnode

/-- A definition that is no function is walked itself. -/
theorem arrives (h : Between m lifted seen (root :: rest)) (wellFormed : m.WellFormed decls history)
    (hroot : m.isDefinition root = true) (hlambda : isLambda (m.kind root) = false) :
    Arrives m history seen ⟨lifted, []⟩ seen root where
  step := h.step
  fresh _ := h.new root List.mem_cons_self
  entered _ hnode := by cases hnode
  owner howns := by simp [owned_not_definition wellFormed howns] at hroot
  global hglobal := by simp [(mem_globals_iff.mp hglobal).2] at hlambda
  reserved _ hdefinition := by simp [hroot] at hdefinition

/-- The walk of one definition. -/
theorem follows (h : Between m lifted seen (root :: rest)) (wellFormed : m.WellFormed decls history)
    (hroot : m.isDefinition root = true)
    (hcollects : Collects m (globalsOf m) ⟨lifted, []⟩ (startOf m root) after) :
    Follows m history seen after seen [root] := by
  cases hlambda : isLambda (m.kind root) with
  | false =>
    have hstart : startOf m root = root := by
      unfold startOf
      cases hkind : m.kind root <;> simp_all [isLambda]
    rw [hstart] at hcollects
    exact hcollects.follows wellFormed (h.arrives wellFormed hroot hlambda)
  | true =>
    cases hkind : m.kind root with
    | lambda scope body =>
      have hstart : startOf m root = body := by rw [startOf, hkind]
      rw [hstart] at hcollects
      have howns : m.Owns root body := by simp [Module.Owns, hkind, NodeKind.children]
      obtain ⟨_, hdone⟩ := (h.midway wellFormed hroot).walk_child wellFormed howns
        List.not_mem_nil (hcollects.follows wellFormed)
      exact hdone.follows (by simp [followed, hkind, NodeKind.children])
    | _ => simp [hkind, isLambda] at hlambda

/-- One more definition has been walked. -/
theorem next (h : Between m lifted seen (root :: rest)) (wellFormed : m.WellFormed decls history)
    (hroots : ∀ id ∈ root :: rest, m.isDefinition id = true) (hnodup : (root :: rest).Nodup)
    (hcollects : Collects m (globalsOf m) ⟨lifted, []⟩ (startOf m root) after) :
    ∃ seen', Discovers (followed m) seen [root] seen' ∧ Between m after.lifted seen' rest := by
  obtain ⟨seen', hwalk, hstep, _⟩ :=
    h.follows wellFormed (hroots root List.mem_cons_self) hcollects
  refine ⟨seen', hwalk, hstep.lifted, hwalk.closed fun id hid child hchild =>
    .inl (h.closed hid hchild), hstep.owner, ?_⟩
  -- no edge leads to a definition, so the walk of one does not come to another
  intro id hid hseen
  rcases hwalk.source hseen with hold | hone | ⟨origin, _, _, hedge⟩
  · exact h.new id (List.mem_cons_of_mem _ hid) hold
  · rw [List.mem_singleton.mp hone] at hid
    exact (List.nodup_cons.mp hnodup).1 hid
  · exact definition_not_followed wellFormed (hroots id (List.mem_cons_of_mem _ hid)) hedge

end Between

/-- The lambdas that are lifted are those that a depth-first walk from the definitions meets, in the
order in which it meets them. -/
theorem liftedOf_discovers (wellFormed : m.WellFormed decls history) (shaped : m.Shaped)
    (hnodup : (m.definitions.map (·.2)).Nodup) :
    ∃ order, Discovers (followed m) [] (m.definitions.map (·.2)) order ∧
      liftedOf m (globalsOf m) = order.filter (isLifted m) := by
  suffices h : ∀ (definitions : Core.Bindings) (lifted seen : List NodeId),
      Between m lifted seen (definitions.map (·.2)) →
      (∀ id ∈ definitions.map (·.2), m.isDefinition id = true) →
      (definitions.map (·.2)).Nodup →
      ∃ order, Discovers (followed m) seen (definitions.map (·.2)) order ∧
        definitions.foldl (fun lifted definition => (collect m (globalsOf m) (walkBound m)
          (startOf m definition.2) ⟨lifted, []⟩).lifted) lifted = order.filter (isLifted m) by
    exact h m.definitions [] [] ⟨rfl, by simp, by simp, by simp⟩
      (fun id => isDefinition_iff_mem.mpr) hnodup
  intro definitions
  induction definitions with
  | nil => exact fun lifted seen hbetween _ _ => ⟨seen, .done, hbetween.lifted⟩
  | cons definition rest ih =>
    intro lifted seen hbetween hroots hnodup
    have hcollects : Collects m (globalsOf m) ⟨lifted, []⟩ (startOf m definition.2) _ :=
      collect_collects shaped (Conversion.Inlinable.nil m) (Conversion.room_le_walkBound _ _)
    obtain ⟨seen', hwalk, hnext⟩ := hbetween.next wellFormed hroots hnodup hcollects
    obtain ⟨order, hrest, hlifted⟩ := ih _ seen' hnext
      (fun id hid => hroots id (List.mem_cons_of_mem _ hid)) (List.nodup_cons.mp hnodup).2
    exact ⟨order, hwalk.append hrest, hlifted⟩

end

/-! ## What is found -/

/-- What lowering says about the modules that it makes. -/
structure Regular (m : Module) : Prop where
  shaped : m.Shaped
  lowered : ∃ operators tree, LoweredModule m operators tree
  wellFormed : ∃ decls history, m.WellFormed decls history
  nodup : (m.definitions.map (·.2)).Nodup

theorem regular_of_lowerModule {options tree m} (hformed : Surface.FormedDecls tree.decls)
    (h : (Core.lowerModule options tree).1 = .ok m) : Regular m := by
  obtain ⟨shaped, hlowered, _⟩ := Core.lowerModule_ok hformed h
  exact ⟨shaped, ⟨_, _, hlowered⟩, ⟨_, _, Core.wellFormed_of_lowerModule hformed h⟩,
    Core.lowerModule_nodup hformed h⟩

/-- Owned nodes, and names of other things than definitions, lead to a node from a definition. -/
def Reached (m : Module) (id : NodeId) : Prop :=
  ∃ start ∈ m.definitions.map (·.2), Relation.ReflTransGen (fun a b => b ∈ followed m a) start id

section

variable {m : Module} {id child node scope body : NodeId}

theorem mem_evaluated_iff :
    child ∈ evaluated m id ↔ isLambda (m.kind id) = false ∧ child ∈ followed m id := by
  unfold evaluated followed
  cases m.kind id <;> simp [isLambda, NodeKind.children]

theorem Reached.of_isDefinition (h : m.isDefinition id = true) : Reached m id :=
  ⟨id, isDefinition_iff_mem.mp h, .refl⟩

theorem Reached.followed (h : Reached m id) (hchild : child ∈ followed m id) : Reached m child := by
  obtain ⟨start, hstart, hpath⟩ := h
  exact ⟨start, hstart, hpath.tail hchild⟩

theorem Reached.leads (h : Reached m id) (hleads : Leads m id node) : Reached m node := by
  induction hleads with
  | refl => exact h
  | tail _ hnext ih => exact ih.followed (mem_evaluated_iff.mp hnext).2

variable (regular : Regular m)

include regular

/-- A lambda is lifted if and only if it is no definition and there is a path to it from one: the
order of the definitions has no say. -/
theorem mem_liftedOf_iff :
    id ∈ liftedOf m (globalsOf m) ↔ isLifted m id = true ∧ Reached m id := by
  obtain ⟨_, _, wellFormed⟩ := regular.wellFormed
  obtain ⟨order, hwalk, hlifted⟩ := liftedOf_discovers wellFormed regular.shaped regular.nodup
  rw [hlifted, List.mem_filter, hwalk.mem_iff, and_comm]
  rfl

theorem liftedOf_nodup : (liftedOf m (globalsOf m)).Nodup := by
  obtain ⟨_, _, wellFormed⟩ := regular.wellFormed
  obtain ⟨order, hwalk, hlifted⟩ := liftedOf_discovers wellFormed regular.shaped regular.nodup
  rw [hlifted]
  exact (hwalk.nodup List.nodup_nil).filter _

/-- The lambdas that definitions lead to become functions. -/
theorem mem_nodes_iff_reached :
    id ∈ (planOf m false).1.nodes ↔ isLambda (m.kind id) = true ∧ Reached m id := by
  show id ∈ (globalsOf m).map (·.1) ++ liftedOf m (globalsOf m) ↔ _
  rw [List.mem_append, mem_globals_iff, mem_liftedOf_iff regular, isLifted]
  by_cases hdefinition : m.isDefinition id = true
  · simp [hdefinition, Reached.of_isDefinition hdefinition]
  · simp [hdefinition]

theorem mem_nodes_of_leads (hid : Reached m id) (hleads : Leads m id node)
    (hkind : m.kind node = .lambda scope body) : node ∈ (planOf m false).1.nodes :=
  (mem_nodes_iff_reached regular).mpr ⟨isLambda_of_kind hkind, hid.leads hleads⟩

end

end Lamina.Flat
