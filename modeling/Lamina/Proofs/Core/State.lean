import Lamina.Proofs.Core.History
import Lamina.Proofs.Core.Lowered
import Lamina.Proofs.Lookup

/-!
# The state of lowering

Lowering only ever adds nodes and scopes, but for two exceptions: the reserved nodes of a block are
filled once, and the names of a finished `let` are forgotten. `Keeps` says so of a run, `Sound` is
what holds of the graph at every moment, and `Ready` is the state in which an expression is lowered.
-/

namespace Lamina.Core

/-! ## Scopes after a change -/

namespace ScopeTree

theorem getElem_push_of_lt (t : ScopeTree) (kind : ScopeKind) (parent : Option ScopeId) {id : Nat}
    (h : id < t.scopes.size) : (t.push kind parent).2.scopes[id]? = t.scopes[id]? := by
  simp [push, Array.getElem?_push, Nat.ne_of_lt h]

theorem getElem_push_self (t : ScopeTree) (kind : ScopeKind) (parent : Option ScopeId) :
    (t.push kind parent).2.scopes[t.scopes.size]? = some ⟨kind, parent, []⟩ := by
  simp [push]

theorem kind_bind (t : ScopeTree) (id other : ScopeId) (name : String) (node : NodeId) :
    (t.bind id name node).kind other = t.kind other := by
  by_cases h : id = other
  · subst h
    cases hs : t.scopes[id]? <;> simp [bind, kind, Array.getElem?_modify, hs]
  · simp [bind, kind, Array.getElem?_modify, h]

theorem kind_release (t : ScopeTree) (id other : ScopeId) :
    (t.release id).kind other = t.kind other := by
  by_cases h : id = other
  · subst h
    cases hs : t.scopes[id]? <;> simp [release, kind, Array.getElem?_modify, hs]
  · simp [release, kind, Array.getElem?_modify, h]

theorem bindings_release_of_ne (t : ScopeTree) {id other : ScopeId} (h : id ≠ other) :
    (t.release id).bindings other = t.bindings other := by
  simp [release, bindings, Array.getElem?_modify, h]

end ScopeTree

theorem Bindings.insert_of_not_mem {bindings : Bindings} {name : String}
    (h : name ∉ bindings.map (·.1)) (node : NodeId) :
    bindings.insert name node = bindings ++ [(name, node)] := by
  induction bindings with
  | nil => rfl
  | cons binding rest ih =>
    rw [List.map_cons, List.mem_cons, not_or] at h
    unfold Bindings.insert
    rw [if_neg fun heq => h.1 heq.symm, ih h.2, List.cons_append]

namespace Lowering

variable {st : LowerState}

/-! ## What a run leaves alone -/

/-- A run changes no old node but those in `nodes`, of which it changes the contents only, and no
old scope but those in `scopes`, of which it changes the bindings only. -/
structure Keeps (nodes : List NodeId) (scopes : List ScopeId) (st st' : LowerState) : Prop where
  size_le : st.graph.size ≤ st'.graph.size
  scopes_le : st.scopes.scopes.size ≤ st'.scopes.scopes.size
  kind : ∀ {id : Nat}, id < st.graph.size → id ∉ nodes → st'.graph.kind id = st.graph.kind id
  added : st.history.added <+: st'.history.added
  bindings : ∀ {id : Nat}, id < st.scopes.scopes.size → id ∉ scopes →
    st'.scopes.bindings id = st.scopes.bindings id
  parent : ∀ {id : Nat}, id < st.scopes.scopes.size → st'.scopes.parent id = st.scopes.parent id
  scopeKind : ∀ {id : Nat}, id < st.scopes.scopes.size → st'.scopes.kind id = st.scopes.kind id

namespace Keeps

variable {nodes nodes' : List NodeId} {scopes scopes' : List ScopeId} {st st' st'' : LowerState}

theorem refl (st : LowerState) : Keeps nodes scopes st st where
  size_le := Nat.le_refl _
  scopes_le := Nat.le_refl _
  kind _ _ := rfl
  added := List.prefix_rfl
  bindings _ _ := rfl
  parent _ := rfl
  scopeKind _ := rfl

theorem trans (h : Keeps nodes scopes st st') (h' : Keeps nodes scopes st' st'') :
    Keeps nodes scopes st st'' where
  size_le := Nat.le_trans h.size_le h'.size_le
  scopes_le := Nat.le_trans h.scopes_le h'.scopes_le
  kind hlt hnot := (h'.kind (Nat.lt_of_lt_of_le hlt h.size_le) hnot).trans (h.kind hlt hnot)
  added := h.added.trans h'.added
  bindings hlt hnot :=
    (h'.bindings (Nat.lt_of_lt_of_le hlt h.scopes_le) hnot).trans (h.bindings hlt hnot)
  parent hlt := (h'.parent (Nat.lt_of_lt_of_le hlt h.scopes_le)).trans (h.parent hlt)
  scopeKind hlt := (h'.scopeKind (Nat.lt_of_lt_of_le hlt h.scopes_le)).trans (h.scopeKind hlt)

/-- Exceptions may be added, and those that were no old nodes or scopes may be dropped. -/
theorem weaken (h : Keeps nodes scopes st st')
    (hnodes : ∀ id ∈ nodes, id < st.graph.size → id ∈ nodes')
    (hscopes : ∀ id ∈ scopes, id < st.scopes.scopes.size → id ∈ scopes') :
    Keeps nodes' scopes' st st' :=
  { h with
    kind := fun hlt hnot => h.kind hlt fun hmem => hnot (hnodes _ hmem hlt)
    bindings := fun hlt hnot => h.bindings hlt fun hmem => hnot (hscopes _ hmem hlt) }

theorem of_none (h : Keeps [] [] st st') : Keeps nodes scopes st st' :=
  h.weaken nofun nofun

/-- Exceptions that are all new are none. -/
theorem of_new (h : Keeps nodes scopes st st') (hnodes : ∀ id ∈ nodes, st.graph.size ≤ id)
    (hscopes : ∀ id ∈ scopes, st.scopes.scopes.size ≤ id) : Keeps [] [] st st' :=
  h.weaken (fun id hid hlt => absurd hlt (Nat.not_lt.mpr (hnodes id hid)))
    fun id hid hlt => absurd hlt (Nat.not_lt.mpr (hscopes id hid))

end Keeps

/-! ## The state at every moment -/

/-- What holds of the state at every moment. The graph is the one that the history leads to, and a
reserved node was filled if and only if it has contents, and then once. -/
structure Sound (st : LowerState) : Prop where
  parent_lt : ∀ {id parent : Nat}, st.scopes.parent id = some parent → parent < id
  replay : st.history.replay = st.graph
  fills : ∀ id, st.history.fills id =
    if st.history.Reserves id ∧ st.graph.kind id ≠ .noForm then 1 else 0
  fits : ∀ id, st.graph.kind id ≠ .noForm → st.history.Fits (st.graph.kind id)

namespace Sound

variable {id : Nat} {kind : NodeKind}

theorem length_added (h : Sound st) : st.history.added.length = st.graph.size := by
  rw [← History.size_replay, h.replay]

/-- A node with contents from the start still has them. -/
theorem kind_eq (h : Sound st) (hadded : st.history.added[id]? = some kind)
    (hkind : kind ≠ .noForm) : st.graph.kind id = kind := by
  rw [← h.replay]
  refine History.kind_replay hadded ?_
  rw [h.fills, if_neg]
  rintro ⟨hreserves, _⟩
  rw [History.Reserves, hadded] at hreserves
  exact hkind (Option.some.inj hreserves)

/-- A node without contents was reserved. -/
theorem reserves (h : Sound st) (hlt : id < st.graph.size) (hkind : st.graph.kind id = .noForm) :
    st.history.Reserves id := by
  have hadded := List.getElem?_eq_getElem (h.length_added ▸ hlt)
  by_contra hreserves
  refine hreserves (hadded.trans (congrArg some ?_))
  by_contra hformed
  exact hformed ((h.kind_eq hadded hformed).symm.trans hkind)

end Sound

/-! ## The small steps -/

/-- The state with a new node. -/
def addNode (st : LowerState) (kind : NodeKind) (name : Option String) : LowerState :=
  { st with
    graph := (st.graph.alloc kind name).2, changes := st.changes.push (.added kind name) }

/-- The state with a reserved node filled. -/
def fillNode (st : LowerState) (id : NodeId) (kind : NodeKind) : LowerState :=
  { st with graph := st.graph.fill id kind, changes := st.changes.push (.filled id kind) }

/-- The state with a new scope. -/
def addScope (st : LowerState) (kind : ScopeKind) (parent : Option ScopeId) : LowerState :=
  { st with scopes := (st.scopes.push kind parent).2 }

/-- The state with a name bound. -/
def bindName (st : LowerState) (scope : ScopeId) (name : String) (node : NodeId) : LowerState :=
  { st with scopes := st.scopes.bind scope name node }

/-- The state with the names of a scope forgotten. -/
def releaseScope (st : LowerState) (scope : ScopeId) : LowerState :=
  { st with scopes := st.scopes.release scope }

/-- The state with an event reported. -/
def reported (st : LowerState) (event : Event) : LowerState :=
  { st with events := st.events.push event }

theorem history_addNode (st : LowerState) (kind : NodeKind) (name : Option String) :
    (addNode st kind name).history = st.history ++ [.added kind name] :=
  Array.toList_push

theorem history_fillNode (st : LowerState) (id : NodeId) (kind : NodeKind) :
    (fillNode st id kind).history = st.history ++ [.filled id kind] :=
  Array.toList_push

theorem keeps_addNode (st : LowerState) (kind : NodeKind) (name : Option String) :
    Keeps [] [] st (addNode st kind name) where
  size_le := by simp [addNode]
  scopes_le := Nat.le_refl _
  kind {id} hlt _ := by
    show (st.graph.alloc kind name).2.kind id = _
    rw [Graph.kind_alloc, if_neg (Nat.ne_of_lt hlt)]
  added := by
    rw [history_addNode, History.added_add]
    exact List.prefix_append _ _
  bindings _ _ := rfl
  parent _ := rfl
  scopeKind _ := rfl

theorem keeps_fillNode (st : LowerState) (id : NodeId) (kind : NodeKind) :
    Keeps [id] [] st (fillNode st id kind) where
  size_le := Nat.le_of_eq (Graph.size_fill _ _ _).symm
  scopes_le := Nat.le_refl _
  kind _ hnot := Graph.kind_fill_of_ne kind fun heq => hnot (List.mem_singleton.mpr heq.symm)
  added := by
    have hsame : (fillNode st id kind).history.added = st.history.added := by
      rw [history_fillNode, History.added_fill]
    exact hsame ▸ List.prefix_rfl
  bindings _ _ := rfl
  parent _ := rfl
  scopeKind _ := rfl

theorem keeps_addScope (st : LowerState) (kind : ScopeKind) (parent : Option ScopeId) :
    Keeps [] [] st (addScope st kind parent) := {
  @Keeps.refl [] [] st with
  scopes_le := by simp [addScope, ScopeTree.push]
  bindings hlt _ := by
    simp only [addScope, ScopeTree.bindings, ScopeTree.getElem_push_of_lt _ _ _ hlt]
  parent hlt := by
    simp only [addScope, ScopeTree.parent, ScopeTree.getElem_push_of_lt _ _ _ hlt]
  scopeKind hlt := by
    simp only [addScope, ScopeTree.kind, ScopeTree.getElem_push_of_lt _ _ _ hlt] }

theorem keeps_bindName (st : LowerState) (scope : ScopeId) (name : String) (node : NodeId) :
    Keeps [] [scope] st (bindName st scope name node) := {
  @Keeps.refl [] [] st with
  scopes_le := by simp [bindName, ScopeTree.bind]
  bindings _ hnot :=
    ScopeTree.bindings_bind_of_ne name node fun heq => hnot (List.mem_singleton.mpr heq.symm)
  parent _ := ScopeTree.parent_bind _ _ _ _ _
  scopeKind _ := ScopeTree.kind_bind _ _ _ _ _ }

theorem keeps_releaseScope (st : LowerState) (scope : ScopeId) :
    Keeps [] [scope] st (releaseScope st scope) := {
  @Keeps.refl [] [] st with
  scopes_le := by simp [releaseScope, ScopeTree.release]
  bindings _ hnot :=
    ScopeTree.bindings_release_of_ne _ fun heq => hnot (List.mem_singleton.mpr heq.symm)
  parent _ := ScopeTree.parent_release _ _ _
  scopeKind _ := ScopeTree.kind_release _ _ _ }

theorem keeps_reported (st : LowerState) (event : Event) : Keeps [] [] st (reported st event) :=
  { Keeps.refl st with }

section

variable (st : LowerState) (kind : ScopeKind) (parent : Option ScopeId)

theorem size_addScope :
    (addScope st kind parent).scopes.scopes.size = st.scopes.scopes.size + 1 :=
  Array.size_push _

theorem size_releaseScope (scope : ScopeId) :
    (releaseScope st scope).scopes.scopes.size = st.scopes.scopes.size :=
  Array.size_modify

theorem lt_size_addScope :
    st.scopes.scopes.size < (addScope st kind parent).scopes.scopes.size := by
  rw [size_addScope]
  exact Nat.lt_succ_self _

theorem parent_addScope :
    (addScope st kind parent).scopes.parent st.scopes.scopes.size = parent := by
  simp only [addScope, ScopeTree.parent, ScopeTree.getElem_push_self]
  rfl

theorem bindings_addScope :
    (addScope st kind parent).scopes.bindings st.scopes.scopes.size = [] := by
  simp only [addScope, ScopeTree.bindings, ScopeTree.getElem_push_self]
  rfl

theorem kind_addScope : (addScope st kind parent).scopes.kind st.scopes.scopes.size = kind := by
  simp only [addScope, ScopeTree.kind, ScopeTree.getElem_push_self]
  rfl

end

namespace Sound

variable {st : LowerState} {kind : NodeKind}

/-- The new node is the next one in the history. -/
theorem added_addNode (h : Sound st) (kind : NodeKind) (name : Option String) (id : Nat) :
    (addNode st kind name).history.added[id]? =
      if id = st.graph.size then some kind else st.history.added[id]? := by
  rw [history_addNode, History.added_add, ← h.length_added]
  by_cases hid : id = st.history.added.length
  · rw [if_pos hid, hid, List.getElem?_concat_length]
  · rw [if_neg hid, List.getElem?_append]
    split
    · rfl
    · rw [List.getElem?_eq_none (by rw [List.length_singleton]; omega),
        List.getElem?_eq_none (by omega)]

theorem addNode (h : Sound st) (hfits : kind ≠ .noForm → st.history.Fits kind)
    (name : Option String) : Sound (addNode st kind name) := by
  have hadded := (keeps_addNode st kind name).added
  have hkind : ∀ id, (Lowering.addNode st kind name).graph.kind id =
      if id = st.graph.size then kind else st.graph.kind id :=
    Graph.kind_alloc st.graph kind name
  refine ⟨h.parent_lt, ?_, ?_, ?_⟩
  · rw [history_addNode, History.replay_snoc, h.replay]
    rfl
  · intro id
    have hfills : (Lowering.addNode st kind name).history.fills id = st.history.fills id := by
      rw [history_addNode, History.fills_add]
    rw [hfills, h.fills]
    refine if_congr ?_ rfl rfl
    rw [History.Reserves, History.Reserves, h.added_addNode, hkind]
    by_cases hid : id = st.graph.size
    · have hnone : st.history.added[id]? = none :=
        List.getElem?_eq_none (Nat.le_of_eq (h.length_added.trans hid.symm))
      simp [hid ▸ hnone, hid]
    · rw [if_neg hid, if_neg hid]
  · intro id
    rw [hkind]
    split
    · exact fun hformed => (hfits hformed).mono hadded
    · exact fun hformed => (h.fits id hformed).mono hadded

theorem fillNode (h : Sound st) {slot : NodeId} (hfits : st.history.Fits kind)
    (hlt : slot < st.graph.size) (hslot : st.graph.kind slot = .noForm) :
    Sound (fillNode st slot kind) := by
  have hself : (Lowering.fillNode st slot kind).graph.kind slot = kind :=
    Graph.kind_fill_self kind hlt
  have hother : ∀ {id}, slot ≠ id →
      (Lowering.fillNode st slot kind).graph.kind id = st.graph.kind id :=
    fun hne => Graph.kind_fill_of_ne kind hne
  refine ⟨h.parent_lt, ?_, ?_, ?_⟩
  · rw [history_fillNode, History.replay_snoc, h.replay]
    rfl
  · intro id
    have hfills : (Lowering.fillNode st slot kind).history.fills id =
        st.history.fills id + if slot = id then 1 else 0 := by
      rw [history_fillNode, History.fills_fill]
    have hreserves : (Lowering.fillNode st slot kind).history.Reserves id ↔
        st.history.Reserves id := by
      rw [History.Reserves, History.Reserves, history_fillNode, History.added_fill]
    rw [hfills, h.fills]
    by_cases hid : slot = id
    · subst hid
      rw [if_pos rfl, if_neg (fun hfilled => hfilled.2 hslot), if_pos]
      exact ⟨hreserves.mpr (h.reserves hlt hslot),
        fun hnone => hfits.formed (hself.symm.trans hnone)⟩
    · rw [if_neg hid, Nat.add_zero]
      refine if_congr ?_ rfl rfl
      rw [hreserves, hother hid]
  · intro id hformed
    refine History.Fits.mono ?_ (keeps_fillNode st slot kind).added
    by_cases hid : slot = id
    · subst hid
      rwa [hself]
    · rw [hother hid] at hformed ⊢
      exact h.fits id hformed

/-- A step that changes nothing but scopes. -/
theorem of_scopes {st' : LowerState} (h : Sound st) (hgraph : st'.graph = st.graph)
    (hchanges : st'.changes = st.changes)
    (hparent : ∀ {id parent : Nat}, st'.scopes.parent id = some parent → parent < id) :
    Sound st' := by
  have hhistory : st'.history = st.history := congrArg Array.toList hchanges
  refine ⟨hparent, ?_, ?_, ?_⟩ <;> rw [hhistory, hgraph]
  · exact h.replay
  · exact h.fills
  · exact h.fits

theorem addScope (h : Sound st) (kind : ScopeKind) {parent}
    (hparent : ∀ id, parent = some id → id < st.scopes.scopes.size) :
    Sound (addScope st kind parent) := by
  refine h.of_scopes rfl rfl ?_
  intro id above habove
  by_cases hlt : id < st.scopes.scopes.size
  · rw [(keeps_addScope st kind parent).parent hlt] at habove
    exact h.parent_lt habove
  · by_cases hid : id = st.scopes.scopes.size
    · subst hid
      rw [parent_addScope] at habove
      exact hparent above habove
    · -- beyond the new scope there is none
      have hnone : (Lowering.addScope st kind parent).scopes.scopes[id]? = none := by
        apply Array.getElem?_eq_none
        simp only [Lowering.addScope, ScopeTree.push, Array.size_push]
        omega
      rw [ScopeTree.parent, hnone] at habove
      cases habove

theorem bindName (h : Sound st) (scope : ScopeId) (name : String) (node : NodeId) :
    Sound (bindName st scope name node) :=
  h.of_scopes rfl rfl fun hparent =>
    h.parent_lt ((ScopeTree.parent_bind _ _ _ _ _).symm.trans hparent)

theorem releaseScope (h : Sound st) (scope : ScopeId) : Sound (releaseScope st scope) :=
  h.of_scopes rfl rfl fun hparent =>
    h.parent_lt ((ScopeTree.parent_release _ _ _).symm.trans hparent)

theorem reported (h : Sound st) (event : Event) : Sound (reported st event) :=
  h.of_scopes rfl rfl h.parent_lt

end Sound

end Lowering

/-! ## Names in scope -/

namespace ScopeTree

variable {t : ScopeTree} {id n : Nat}

theorem chainWithin_eq (hparent : ∀ {id parent : Nat}, t.parent id = some parent → parent < id)
    {k : Nat} (hn : id ≤ n) (hk : id ≤ k) : t.chainWithin n id = t.chainWithin k id := by
  -- parents have smaller ids, so a bound of `id` steps is never reached
  induction id using Nat.strongRecOn generalizing n k with
  | _ id ih =>
    cases hp : t.parent id with
    | none => cases n <;> cases k <;> simp [chainWithin, hp]
    | some parent =>
      have hlt := hparent hp
      obtain ⟨n, rfl⟩ := Nat.exists_eq_add_of_lt (Nat.lt_of_lt_of_le hlt hn)
      obtain ⟨k, rfl⟩ := Nat.exists_eq_add_of_lt (Nat.lt_of_lt_of_le hlt hk)
      simp only [chainWithin, hp]
      rw [ih parent hlt (Nat.le_add_right _ _) (Nat.le_add_right _ _)]

theorem mem_chainWithin_le (hparent : ∀ {id parent : Nat}, t.parent id = some parent → parent < id)
    {s : Nat} (h : s ∈ t.chainWithin n id) : s ≤ id := by
  induction n generalizing id with
  | zero => exact Nat.le_of_eq (List.mem_singleton.mp h)
  | succ n ih =>
    unfold chainWithin at h
    split at h
    · exact Nat.le_of_eq (List.mem_singleton.mp h)
    · rename_i parent hp
      rcases List.mem_cons.mp h with rfl | hmem
      · exact Nat.le_refl _
      · exact Nat.le_of_lt (Nat.lt_of_le_of_lt (ih hmem) (hparent hp))

theorem chainWithin_congr {t' : ScopeTree}
    (hparent : ∀ {id parent : Nat}, t.parent id = some parent → parent < id)
    (h : ∀ s, s ≤ id → t'.parent s = t.parent s) : t'.chainWithin n id = t.chainWithin n id := by
  induction n generalizing id with
  | zero => rfl
  | succ n ih =>
    unfold chainWithin
    rw [h id (Nat.le_refl _)]
    cases hp : t.parent id with
    | none => rfl
    | some parent =>
      have hlt := hparent hp
      simp only
      rw [ih fun s hs => h s (Nat.le_trans hs (Nat.le_of_lt hlt))]

theorem chain_of_root (h : t.parent id = none) : t.chain id = [id] := by
  unfold chain
  cases t.scopes.size with
  | zero => rfl
  | succ n => simp [chainWithin, h]

/-- Around a scope come its parent and those around that one. -/
theorem chain_of_parent (hparent : ∀ {id parent : Nat}, t.parent id = some parent → parent < id)
    (hlt : id < t.scopes.size) {parent : Nat} (hp : t.parent id = some parent) :
    t.chain id = id :: t.chain parent := by
  have hbelow := hparent hp
  have hstep : t.chainWithin (id + 1) id = id :: t.chainWithin id parent := by
    simp only [chainWithin, hp]
  unfold chain
  rw [chainWithin_eq (k := id + 1) hparent (by omega) (by omega), hstep,
    chainWithin_eq (k := t.scopes.size) hparent (by omega) (by omega)]

/-- A name is shown to be visible if and only if it is found. -/
theorem contains_snapshot (t : ScopeTree) (scope : ScopeId) (name : String) :
    (t.snapshot scope).contains name ↔ (t.lookup scope name).isSome := by
  simp only [Snapshot.contains, snapshot, lookup, List.any_map, List.any_eq_true,
    List.findSome?_isSome_iff]
  refine exists_congr fun s => and_congr_right fun _ => ?_
  rw [lookupLocal, ← not_iff_not, Bool.not_eq_true, Option.not_isSome_iff_eq_none,
    lookup_eq_none_iff_not_mem]
  simp [localNames]

end ScopeTree

namespace Lowering

variable {st st' : LowerState} {scope : Nat} {nodes : List NodeId} {scopes : List ScopeId}

theorem Keeps.chain (h : Keeps nodes scopes st st') (sound : Sound st) (sound' : Sound st')
    (hlt : scope < st.scopes.scopes.size) : st'.scopes.chain scope = st.scopes.chain scope := by
  -- the number of scopes bounds the walk, and that number may have grown
  unfold ScopeTree.chain
  rw [ScopeTree.chainWithin_eq sound'.parent_lt
    (Nat.le_of_lt (Nat.lt_of_lt_of_le hlt h.scopes_le)) (Nat.le_of_lt hlt)]
  exact ScopeTree.chainWithin_congr sound.parent_lt fun s hs =>
    h.parent (Nat.lt_of_le_of_lt hs hlt)

/-- A run that leaves the chain of scopes alone changes nothing that is seen along it. -/
theorem Keeps.map_chain {α : Type} (h : Keeps nodes scopes st st') (sound : Sound st)
    (sound' : Sound st') (hlt : scope < st.scopes.scopes.size) (hscopes : ∀ s ∈ scopes, scope < s)
    (f : ScopeKind → Bindings → α) :
    (st'.scopes.chain scope).map (fun s => f (st'.scopes.kind s) (st'.scopes.bindings s)) =
      (st.scopes.chain scope).map fun s => f (st.scopes.kind s) (st.scopes.bindings s) := by
  rw [h.chain sound sound' hlt]
  apply List.map_congr_left
  intro s hs
  have hle := ScopeTree.mem_chainWithin_le sound.parent_lt hs
  have hold : s ∉ scopes := fun hmem => Nat.not_lt.mpr hle (hscopes s hmem)
  have hlt' := Nat.lt_of_le_of_lt hle hlt
  rw [h.scopeKind hlt', h.bindings hlt' hold]

/-- What is in scope: the bindings along the chain of scopes. -/
def Sees (st : LowerState) (scope : ScopeId) (names : Names) : Prop :=
  (st.scopes.chain scope).map st.scopes.bindings = names

namespace Sees

variable {st st' : LowerState} {scope : Nat} {names : Names}

theorem lookup (h : Sees st scope names) (name : String) :
    st.scopes.lookup scope name = names.find? name := by
  rw [← h]
  simp only [ScopeTree.lookup, Names.find?, List.findSome?_map]
  rfl

/-- Inside an inner scope its own bindings come first. -/
theorem inner (h : Sees st scope names) (sound : Sound st) {id : Nat}
    (hlt : id < st.scopes.scopes.size) (hparent : st.scopes.parent id = some scope) :
    Sees st id (st.scopes.bindings id :: names) := by
  unfold Sees
  rw [ScopeTree.chain_of_parent sound.parent_lt hlt hparent, List.map_cons]
  exact congrArg _ h

end Sees

/-- What an expression is lowered in: a sound state, and names that lead where they may. -/
structure Ready (st : LowerState) (scope : Nat) (names : Names) : Prop where
  sound : Sound st
  sees : Sees st scope names
  scope_lt : scope < st.scopes.scopes.size
  leads : ∀ node ∈ names.nodes, st.history.Leads node

theorem Ready.mono {names : Names} (h : Ready st scope names) (sound : Sound st')
    (hkeeps : Keeps nodes scopes st st') (hscopes : ∀ s ∈ scopes, scope < s) :
    Ready st' scope names where
  sound := sound
  sees := (hkeeps.map_chain h.sound sound h.scope_lt hscopes fun _ frame => frame).trans h.sees
  scope_lt := Nat.lt_of_lt_of_le h.scope_lt hkeeps.scopes_le
  leads node hnode := (h.leads node hnode).mono hkeeps.added

end Lowering

end Lamina.Core
