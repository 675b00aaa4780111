import Mathlib.Logic.Relation
import Lamina.Proofs.Core.Lowering

/-!
# Well-formed modules

What every lowered module satisfies. Its nodes all have contents, and came by them in the way that
its history tells; references lead only where names may lead; owned edges form a forest; and the
scopes are those of the text, with one lambda for each function and one placeholder for each
parameter.
-/

namespace Lamina.Core

variable {tree : Surface.Module}

namespace Module

/-- A node owns another. -/
def Owns (m : Module) (id child : NodeId) : Prop := child ∈ (m.kind id).children

/-- A node that the prelude binds to an intrinsic. -/
def OfPrelude (m : Module) (id : NodeId) : Prop :=
  id ∈ (m.scopes.bindings m.root).map (·.2) ∧ ∃ op, m.kind id = .intrinsic op

/-- The graph has a history in which a reserved node is filled once, and nothing else is changed
after it was added. -/
structure Recorded (m : Module) (history : History) : Prop where
  replay : history.replay = m.graph
  fills : ∀ id, history.fills id = if history.Reserves id then 1 else 0
  unchanged : ∀ {before after id}, history = before ++ after →
    id < before.replay.size → ¬ history.Reserves id → before.replay.kind id = m.kind id

/-- A node has at most one owner, which owns it once, and no way along owned edges leads back. -/
structure Forest (m : Module) : Prop where
  nodup : ∀ id, (m.kind id).children.Nodup
  single : ∀ {a b child : Nat}, m.Owns a child → m.Owns b child → a = b
  acyclic : ∀ id, ¬ Relation.TransGen m.Owns id id

/-- The scopes are those of a table. The scopes of functions and the lambdas belong together, and so
do the parameters of these scopes and the placeholders. -/
structure HasScopes (m : Module) (table : List WrittenScope) : Prop where
  size : m.scopes.scopes.size = table.length
  kind : ∀ {id written}, table[id]? = some written →
    m.scopes.kind id = written.kind
  parent : ∀ {id written}, table[id]? = some written →
    m.scopes.parent id = written.parent
  keys : ∀ {id written}, table[id]? = some written →
    written.kind = .paramScope → (m.scopes.bindings id).map (·.1) = paramKeys 0 written.params
  nodup : ∀ {scope : Nat}, m.scopes.kind scope = .paramScope →
    ((m.scopes.bindings scope).map (·.2)).Nodup
  lambda : ∀ {scope : Nat}, m.scopes.kind scope = .paramScope ↔
    ∃ id body, m.kind id = .lambda scope body
  lambda_single : ∀ {a b scope body body' : Nat}, m.kind a = .lambda scope body →
    m.kind b = .lambda scope body' → a = b
  placeholder : ∀ {id : Nat}, m.kind id = .placeholder ↔
    ∃ scope, m.scopes.kind scope = .paramScope ∧ id ∈ (m.scopes.bindings scope).map (·.2)
  placeholder_single : ∀ {a b id : Nat}, m.scopes.kind a = .paramScope →
    m.scopes.kind b = .paramScope → id ∈ (m.scopes.bindings a).map (·.2) →
    id ∈ (m.scopes.bindings b).map (·.2) → a = b

/-- What holds of the graph of a module that was lowered from declarations. -/
structure WellFormed (m : Module) (decls : List Surface.Decl) (history : History) : Prop where
  formed : ∀ {id : Nat}, id < m.graph.size → m.kind id ≠ .noForm
  recorded : m.Recorded history
  child_lt : ∀ {id child : Nat}, m.Owns id child → child < m.graph.size
  target_lt : ∀ {id target : Nat}, m.kind id = .indirection target → target < m.graph.size
  target : ∀ {id target : Nat}, m.kind id = .indirection target →
    m.OfPrelude target ∨ m.kind target = .placeholder ∨ history.Reserves target
  forest : m.Forest
  definition : ∀ {id : Nat}, id ∈ m.definitions.map (·.2) → history.Reserves id
  owned : ∀ {id child : Nat}, m.Owns id child → ¬ history.Reserves child
  hasScopes : m.HasScopes (moduleScopes decls)

end Module

/-! ## From the invariants of lowering -/

theorem NodeKind.nodup_children {kind : NodeKind} (h : kind.parts.Nodup) : kind.children.Nodup := by
  cases kind <;> simp_all [parts, children, eq_comm]

/-- Only the nodes of the table have contents. -/
theorem Graph.lt_size_of_kind {g : Graph} {id : Nat} (h : g.kind id ≠ .noForm) : id < g.size := by
  refine Nat.lt_of_not_le fun hle => h ?_
  have hnone : g.nodes[id]? = none := Array.getElem?_eq_none hle
  rw [Graph.kind, hnone]

namespace Module

variable {m : Module}

/-- Nothing is used twice, so a node has one owner; the edges fall in rank, so none leads back. -/
theorem forest_of_ledger (h : Ledger m 0 m.graph.size 0 m.scopes.scopes.size [])
    (hshaped : m.Shaped) : m.Forest := by
  refine ⟨?_, ?_, ?_⟩
  · intro id
    by_cases hmem : id ∈ List.Ico 0 m.graph.size
    · exact NodeKind.nodup_children ((List.nodup_flatMap.mp h.nodup_nodes).1 id hmem)
    · rw [kind_of_size_le (by simpa using hmem)]
      exact List.nodup_nil
  · intro a b child ha hb
    have hparta := NodeKind.node_mem_parts.mpr ha
    have hpartb := NodeKind.node_mem_parts.mpr hb
    exact eq_of_nodup_flatMap h.nodup_nodes (node_mem_Ico hparta) (node_mem_Ico hpartb) hparta
      hpartb
  · have hfalls : ∀ {a b : Nat}, Relation.TransGen m.Owns a b → m.rank b < m.rank a := by
      intro a b hpath
      induction hpath with
      | single hedge => exact hshaped.rank_child hedge
      | tail _ hedge ih => exact Nat.lt_trans (hshaped.rank_child hedge) ih
    exact fun id hpath => Nat.lt_irrefl _ (hfalls hpath)

theorem hasScopes_of_ledger {table} (h : Ledger m 0 m.graph.size 0 m.scopes.scopes.size [])
    (hdrawn : Drawn m m.scopes.scopes.size table) : m.HasScopes table := by
  have hparams : ∀ {id scope body : Nat}, m.kind id = .lambda scope body →
      Loose.params scope ∈ (m.kind id).parts :=
    fun hid => NodeKind.params_mem_parts.mpr ⟨_, hid⟩
  have hlt : ∀ {scope : Nat}, m.scopes.kind scope = .paramScope →
      scope < m.scopes.scopes.size := by
    intro scope hscope
    refine Nat.lt_of_not_le fun hle => ?_
    rw [ScopeTree.kind, Array.getElem?_eq_none hle] at hscope
    cases hscope
  refine ⟨hdrawn.size.symm, fun hid => (hdrawn.written hid).kind,
    fun hid => (hdrawn.written hid).parent, fun hid => (hdrawn.written hid).keys, ?_, ?_, ?_, ?_,
    ?_⟩
  · intro scope hscope
    have hheld := (List.nodup_flatMap.mp h.nodup_scopes).1 scope
      (List.Ico.mem.mpr ⟨Nat.zero_le _, hlt hscope⟩)
    rw [held, if_pos hscope] at hheld
    exact List.Nodup.of_map Loose.holder (by rwa [List.map_map])
  · -- a scope of parameters was made, so it was used, and only a lambda uses one
    intro scope
    constructor
    · intro hscope
      have hused := h.used (.params scope) ⟨Nat.zero_le _, hlt hscope, hscope⟩ (by simp)
      rw [List.append_nil, uses, List.mem_append, List.mem_flatMap, List.mem_flatMap] at hused
      rcases hused with ⟨id, _, hpart⟩ | ⟨other, _, hheld⟩
      · exact ⟨id, NodeKind.params_mem_parts.mp hpart⟩
      · obtain ⟨_, heq⟩ := holder_of_mem_held hheld
        cases heq
    · rintro ⟨id, body, hid⟩
      exact (h.made_of_parts (hparams hid)).2.2
  · intro a b scope body body' ha hb
    exact eq_of_nodup_flatMap h.nodup_nodes (node_mem_Ico (hparams ha)) (node_mem_Ico (hparams hb))
      (hparams ha) (hparams hb)
  · intro id
    constructor
    · intro hid
      have hid' : m.graph.kind id ≠ .noForm := by simp [show m.graph.kind id = _ from hid]
      have hused := h.used (.holder id) ⟨Nat.zero_le _, Graph.lt_size_of_kind hid', hid⟩ (by simp)
      rw [List.append_nil, uses, List.mem_append, List.mem_flatMap, List.mem_flatMap] at hused
      rcases hused with ⟨_, _, hpart⟩ | ⟨scope, _, hheld⟩
      · exact absurd hpart NodeKind.holder_not_mem_parts
      · exact ⟨scope, holder_mem_held.mp hheld⟩
    · rintro ⟨scope, hheld⟩
      have hheld := holder_mem_held.mpr hheld
      exact (h.made _ (List.mem_append_left _ (List.mem_append_right _
        (List.mem_flatMap.mpr ⟨scope, scope_mem_Ico hheld, hheld⟩)))).2.2
  · intro a b id ha hb hida hidb
    have hhelda := holder_mem_held.mpr ⟨ha, hida⟩
    have hheldb := holder_mem_held.mpr ⟨hb, hidb⟩
    exact eq_of_nodup_flatMap h.nodup_scopes (scope_mem_Ico hhelda) (scope_mem_Ico hheldb) hhelda
      hheldb

end Module

/-- Without definitions there are no bodies. -/
theorem BuiltBlock.eq_of_nil {m first last low high inside names decls} :
    BuiltBlock m first last low high inside names decls [] → first = last
  | .nil => rfl
  | .signature hrest => hrest.eq_of_nil

namespace Lowering.Declares

variable {options : LowerOptions} {st : LowerState}

theorem recorded (h : Declares options tree st) :
    (moduleOf options tree st).Recorded st.history := by
  have hfills : ∀ id, st.history.fills id = if st.history.Reserves id then 1 else 0 := by
    intro id
    rw [h.sound.fills]
    refine if_congr ⟨fun hid => hid.1, fun hid => ⟨hid, ?_⟩⟩ rfl rfl
    exact h.built.ledger.formed id (Nat.zero_le _) (h.sound.length_added ▸ hid.lt)
  refine ⟨h.sound.replay, hfills, ?_⟩
  intro before after id hsplit hlt hreserves
  have hzero : after.fills id = 0 := by
    have hall := hfills id
    rw [if_neg hreserves, hsplit, History.fills_append] at hall
    omega
  rw [← History.kind_replay_append hlt hzero, ← hsplit, h.sound.replay]
  rfl

theorem fits (h : Declares options tree st) {id kind}
    (hkind : (moduleOf options tree st).kind id = kind) (hformed : kind ≠ .noForm) :
    st.history.Fits kind := by
  subst hkind
  exact h.sound.fits id hformed

/-- The intrinsics that were added before everything else are those of the prelude: the first
definition follows them, and its node is reserved. -/
theorem ofPrelude (h : Declares options tree st) {target : Nat}
    (hintrinsic : ∀ i ≤ target, ∃ op, st.history.added[i]? = some (.intrinsic op)) :
    (moduleOf options tree st).OfPrelude target := by
  obtain ⟨slots, hslots, hle, hblock⟩ := h.built.definitions
  have hlt : target < (preludeNames options.preludeOperators).length := by
    refine Nat.lt_of_not_le fun hge => ?_
    obtain ⟨op, hop⟩ := hintrinsic _ hge
    rcases Nat.eq_or_lt_of_le hle with heq | hlt
    · rw [heq, List.Ico.self_empty, List.map_eq_nil_iff] at hslots
      rw [hslots] at hblock
      have hsize := h.sound.length_added.trans hblock.eq_of_nil.symm
      have hlast := (List.getElem?_eq_some_iff.mp hop).1
      omega
    · have hmem := List.Ico.mem.mpr ⟨Nat.le_refl _, hlt⟩
      rw [← hslots] at hmem
      have hreserves := h.reserves _ hmem
      rw [History.Reserves, hop] at hreserves
      cases hreserves
  refine ⟨?_, h.built.kind_of_prelude hlt⟩
  rw [h.built.preludeNodes]
  exact List.mem_range.mpr hlt

theorem wellFormed (h : Declares options tree st) :
    (moduleOf options tree st).WellFormed tree.decls st.history := by
  have hledger := h.built.ledger
  refine ⟨hledger.formed _ (Nat.zero_le _), h.recorded, h.shaped.child_lt, h.shaped.target_lt, ?_,
    Module.forest_of_ledger hledger h.shaped, fun hid => h.reserves _ hid, ?_,
    Module.hasScopes_of_ledger hledger h.built.drawn⟩
  · intro id target hkind
    rcases (h.fits hkind nofun).target rfl with hreserves | hplaceholder | hintrinsic
    · exact .inr (.inr hreserves)
    · exact .inr (.inl (h.sound.kind_eq hplaceholder nofun))
    · exact .inl (h.ofPrelude hintrinsic)
  · intro id child howns hreserves
    have hformed : (moduleOf options tree st).kind id ≠ .noForm := by
      intro hnone
      rw [Module.Owns, hnone] at howns
      cases howns
    obtain ⟨kind, hadded, hkind⟩ := (h.fits rfl hformed).child howns
    rw [History.Reserves, hadded] at hreserves
    exact hkind (Option.some.inj hreserves)

end Lowering.Declares

theorem wellFormed_of_lowerModule {options m} (hformed : Surface.FormedDecls tree.decls)
    (hm : (lowerModule options tree).1 = .ok m) :
    m.WellFormed tree.decls (lowerHistory options tree) := by
  obtain ⟨st, hdeclares, rfl, hhistory⟩ := declares_of_lowerModule hformed hm
  exact hhistory ▸ hdeclares.wellFormed

end Lamina.Core
