import Lamina.Proofs.Core.Rules

/-!
# What lowering makes

`Makes` is what an expression leaves behind in the graph: whatever module the graph ends up in, as
long as it has the nodes made here, has the expression lowered. The lemmas put what was made of the
parts of an expression together. They follow the steps of lowering and the sites that these check,
and know nothing of its recursion.
-/

namespace Lamina.Core.Lowering

open Lamina.Surface (Ident Expr Decl SourceName FormedParams)

/-- A run added these nodes, in order. -/
def Adds (st st' : LowerState) (made : List Addition) : Prop :=
  st'.history.labels = st.history.labels ++ made

namespace Adds

variable {st st' st'' : LowerState} {made made' : List Addition}

theorem refl (st : LowerState) : Adds st st [] := (List.append_nil _).symm

theorem trans (h : Adds st st' made) (h' : Adds st' st'' made') : Adds st st'' (made ++ made') := by
  rw [Adds, h', h, List.append_assoc]

theorem addNode (h : Adds st st' made) (kind : NodeKind) (name : Option String) :
    Adds st (addNode st' kind name) (made ++ [name.map (·, kind)]) :=
  h.trans (by simp [Adds, Lowering.addNode, LowerState.history, History.labels])

theorem fillNode (h : Adds st st' made) (id : NodeId) (kind : NodeKind) :
    Adds st (fillNode st' id kind) made := by
  simpa [Adds, Lowering.fillNode, LowerState.history, History.labels] using h

end Adds

variable {options : LowerOptions} {st st' : LowerState} {first firstScope scope : Nat} {m : Module}

/-! ## What an expression leaves behind -/

/-- A module has the nodes from `first` on, and the scopes from `firstScope` on, as they are in a
state. -/
structure Agrees (m : Module) (first firstScope : Nat) (st : LowerState) : Prop where
  kind : ∀ {id : Nat}, first ≤ id → id < st.graph.size → m.kind id = st.graph.kind id
  bindings : ∀ {id : Nat}, firstScope ≤ id → id < st.scopes.scopes.size →
    m.scopes.bindings id = st.scopes.bindings id
  parent : ∀ {id : Nat}, firstScope ≤ id → id < st.scopes.scopes.size →
    m.scopes.parent id = st.scopes.parent id
  scopeKind : ∀ {id : Nat}, firstScope ≤ id → id < st.scopes.scopes.size →
    m.scopes.kind id = st.scopes.kind id

/-- A module that agrees with a later state agrees with an earlier one on what was not touched in
between. -/
theorem Agrees.earlier {nodes : List NodeId} {scopes : List ScopeId}
    (h : Agrees m first firstScope st') (hkeeps : Keeps nodes scopes st st')
    (hnodes : ∀ id ∈ nodes, id < first) (hscopes : ∀ id ∈ scopes, id < firstScope) :
    Agrees m first firstScope st where
  kind {id} hid hlt := by
    have hnot : id ∉ nodes := fun hmem => Nat.not_lt.mpr hid (hnodes id hmem)
    rw [h.kind hid (Nat.lt_of_lt_of_le hlt hkeeps.size_le), hkeeps.kind hlt hnot]
  bindings {id} hid hlt := by
    have hnot : id ∉ scopes := fun hmem => Nat.not_lt.mpr hid (hscopes id hmem)
    rw [h.bindings hid (Nat.lt_of_lt_of_le hlt hkeeps.scopes_le), hkeeps.bindings hlt hnot]
  parent hid hlt :=
    (h.parent hid (Nat.lt_of_lt_of_le hlt hkeeps.scopes_le)).trans (hkeeps.parent hlt)
  scopeKind hid hlt :=
    (h.scopeKind hid (Nat.lt_of_lt_of_le hlt hkeeps.scopes_le)).trans (hkeeps.scopeKind hlt)

theorem Agrees.mono {first' firstScope' : Nat} (h : Agrees m first firstScope st)
    (hle : first ≤ first') (hle' : firstScope ≤ firstScope') :
    Agrees m first' firstScope' st where
  kind hid hlt := h.kind (Nat.le_trans hle hid) hlt
  bindings hid hlt := h.bindings (Nat.le_trans hle' hid) hlt
  parent hid hlt := h.parent (Nat.le_trans hle' hid) hlt
  scopeKind hid hlt := h.scopeKind (Nat.le_trans hle' hid) hlt

/-- A run made the contents of a node; every module that has what was made on the way has the
property. -/
structure Makes (st : LowerState) (P : Module → NodeKind → Prop) (kind : NodeKind)
    (st' : LowerState) : Prop where
  sound : Sound st'
  keeps : Keeps [] [] st st'
  fits : st'.history.Fits kind
  holds : ∀ m, Agrees m st.graph.size st.scopes.scopes.size st' → P m kind

/-- A run made a node for the contents, after all that was made for them. -/
structure Owns (st : LowerState) (P : Module → NodeKind → Prop) (id : Nat) (st' : LowerState) :
    Prop where
  sound : Sound st'
  keeps : Keeps [] [] st st'
  size : st'.graph.size = id + 1
  added : ∃ kind, st'.history.added[id]? = some kind ∧ kind ≠ .noForm
  holds : ∀ m, Agrees m st.graph.size st.scopes.scopes.size st' → P m (m.kind id)

section

variable {st st' st'' : LowerState} {P : Module → NodeKind → Prop} {kind : NodeKind}

theorem Makes.imp {Q} (h : Makes st P kind st') (himp : ∀ m, P m kind → Q m kind) :
    Makes st Q kind st' :=
  ⟨h.sound, h.keeps, h.fits, fun m hm => himp m (h.holds m hm)⟩

/-- A node for contents that were made. -/
theorem Makes.owns (h : Makes st P kind st') (name : Option String) :
    Owns st P st'.graph.size (addNode st' kind name) := by
  have hkeeps := keeps_addNode st' kind name
  have hlt : st'.graph.size < (addNode st' kind name).graph.size := by simp [addNode]
  refine ⟨h.sound.addNode (fun _ => h.fits) name, h.keeps.trans hkeeps, by simp [addNode],
    ⟨kind, ?_, h.fits.formed⟩, ?_⟩
  · rw [h.sound.added_addNode, if_pos rfl]
  · intro m hm
    rw [hm.kind h.keeps.size_le hlt, show (addNode st' kind name).graph.kind _ = kind from
      Graph.kind_alloc_self _ _ _]
    exact h.holds m (hm.earlier hkeeps (List.forall_mem_nil _) (List.forall_mem_nil _))

namespace Owns

variable {id : Nat}

theorem added_later (h : Owns st P id st') (hkeeps : Keeps [] [] st' st'') :
    ∃ kind, st''.history.added[id]? = some kind ∧ kind ≠ .noForm :=
  h.added.imp fun _ hkind => ⟨History.getElem?_of_isPrefix hkeeps.added hkind.1, hkind.2⟩

theorem holds_later (h : Owns st P id st') (hkeeps : Keeps [] [] st' st'') {m : Module}
    (hm : Agrees m st.graph.size st.scopes.scopes.size st'') : P m (m.kind id) :=
  h.holds m (hm.earlier hkeeps nofun nofun)

end Owns

end

section

variable (scope : ScopeId) (names : Names) (e : Expr) (st : LowerState)

/-- An expression was lowered: it is built from what was made, and that was counted in it. -/
def Lowers (kind : NodeKind) (st' : LowerState) : Prop :=
  Makes st (fun m kind => Built m st.graph.size st'.graph.size st.scopes.scopes.size
    st'.scopes.scopes.size scope names e kind) kind st' ∧ Adds st st' (exprNodes e)

/-- An expression was lowered, and its node stands right after the nodes that were made for it. -/
def LowersChild (id : NodeId) (st' : LowerState) : Prop :=
  Owns st (fun m kind => Built m st.graph.size id st.scopes.scopes.size st'.scopes.scopes.size scope
    names e kind) id st' ∧ Adds st st' (exprNodes e ++ [none])

/-- A function was lowered. -/
def LowersLambda (params : List Ident) (kind : NodeKind) (st' : LowerState) : Prop :=
  Makes st (fun m kind => BuiltLambda m st.graph.size st'.graph.size st.scopes.scopes.size
    st'.scopes.scopes.size scope names params e kind) kind st' ∧
    Adds st st' (lambdaNodes params (exprNodes e))

variable {scope names e st}

theorem Checks.child {sites contents}
    (h : Checks options sites contents st (Lowers scope names e st)) :
    Checks options sites (child contents) st (LowersChild scope names e st) :=
  h.and_then fun _ _ hmake => ⟨_, _, rfl, hmake.1.owns none, hmake.2.addNode _ none⟩

end

/-! ## Names -/

section

variable {st st' : LowerState} {scope : Nat} {names : Names} {id : Ident} {kind : NodeKind}

theorem Ready.makes_bound (h : Ready st scope names) {name target}
    (htarget : st.scopes.lookup scope name = some target) :
    Makes st (fun _ kind => Resolves names name kind) (.indirection target) st := by
  rw [h.sees.lookup] at htarget
  refine ⟨h.sound, Keeps.refl st, ⟨nofun, ?_, nofun⟩, fun _ _ => .bound htarget⟩
  intro other hother
  cases hother
  exact h.leads target (Names.mem_nodes_of_find htarget)

end

/-! ## Bindings -/

/-- The state with a new node that a name of a scope is bound to. -/
def addBinding (st : LowerState) (scope : ScopeId) (key : String) (kind : NodeKind)
    (name : String) : LowerState :=
  bindName (addNode st kind (some name)) scope key st.graph.size

/-- A run added bindings to a scope, each with a new node, and made no other nodes. -/
structure Binds (scope : Nat) (entries : List (String × NodeKind)) (st st' : LowerState)
    (frame : Bindings) : Prop where
  sound : Sound st'
  keeps : Keeps [] [scope] st st'
  bindings : st'.scopes.bindings scope = st.scopes.bindings scope ++ frame
  entries : frame.map (fun binding => (binding.1, st'.graph.kind binding.2)) = entries
  nodes : frame.map (·.2) = List.Ico st.graph.size st'.graph.size
  scopes_eq : st'.scopes.scopes.size = st.scopes.scopes.size
  leads : ∀ binding ∈ frame, st'.history.Leads binding.2

namespace Binds

variable {scope : Nat} {entries : List (String × NodeKind)} {st st' : LowerState} {frame : Bindings}
  {binding : String × NodeId} {kind : NodeKind} {key : String}

theorem nil (sound : Sound st) : Binds scope [] st st [] :=
  ⟨sound, Keeps.refl st, (List.append_nil _).symm, rfl, List.Ico.self_empty.symm, rfl, nofun⟩

theorem nodup (h : Binds scope entries st st' frame) : (frame.map (·.2)).Nodup :=
  h.nodes ▸ List.Ico.nodup _ _

theorem keys (h : Binds scope entries st st' frame) : frame.map (·.1) = entries.map (·.1) := by
  rw [← h.entries, List.map_map]
  rfl

/-- The nodes of the bindings are new. -/
theorem node_bounds (h : Binds scope entries st st' frame) (hbinding : binding ∈ frame) :
    st.graph.size ≤ binding.2 ∧ binding.2 < st'.graph.size := by
  have hmem : binding.2 ∈ frame.map (·.2) := List.mem_map_of_mem hbinding
  rw [h.nodes] at hmem
  exact List.Ico.mem.mp hmem

theorem keeps_addBinding (st : LowerState) (scope : Nat) (key : String) (kind : NodeKind)
    (name : String) : Keeps [] [scope] st (addBinding st scope key kind name) :=
  (keeps_addNode st kind (some name)).of_none.trans (keeps_bindName _ scope key st.graph.size)

theorem sound_addBinding (sound : Sound st) (key : String) (hkind : kind.successors = [])
    (name : String) : Sound (addBinding st scope key kind name) :=
  (sound.addNode (fun hformed => .of_successors hformed hkind) (some name)).bindName scope key
    st.graph.size

theorem bindings_addBinding (hlt : scope < st.scopes.scopes.size)
    (hnew : key ∉ (st.scopes.bindings scope).map (·.1)) (kind : NodeKind) (name : String) :
    (addBinding st scope key kind name).scopes.bindings scope =
      st.scopes.bindings scope ++ [(key, st.graph.size)] := by
  show (st.scopes.bind scope key st.graph.size).bindings scope = _
  rw [ScopeTree.bindings_bind_self _ _ hlt, Bindings.insert_of_not_mem hnew]

theorem entry_mem (h : Binds scope entries st st' frame) (hbinding : binding ∈ frame) :
    (binding.1, st'.graph.kind binding.2) ∈ entries :=
  h.entries ▸ List.mem_map.mpr ⟨binding, hbinding, rfl⟩

theorem added_addBinding (sound : Sound st) (key : String) (kind : NodeKind) (name : String) :
    (addBinding st scope key kind name).history.added[st.graph.size]? = some kind :=
  (sound.added_addNode kind (some name) _).trans (if_pos rfl)

/-- One more binding before the others. -/
theorem cons (hlt : scope < st.scopes.scopes.size)
    (hnew : key ∉ (st.scopes.bindings scope).map (·.1)) {name : String}
    (hleads : (addBinding st scope key kind name).history.Leads st.graph.size)
    (h : Binds scope entries (addBinding st scope key kind name) st' frame) :
    Binds scope ((key, kind) :: entries) st st' ((key, st.graph.size) :: frame) := by
  have hsize : (addBinding st scope key kind name).graph.size = st.graph.size + 1 :=
    Graph.size_alloc _ _ _
  have hold : st.graph.size < (addBinding st scope key kind name).graph.size := by omega
  have hkind : (addBinding st scope key kind name).graph.kind st.graph.size = kind :=
    Graph.kind_alloc_self _ _ _
  -- the node was added first, so it stands before those of the other bindings
  refine ⟨h.sound, (keeps_addBinding st scope key kind name).trans h.keeps, ?_, ?_, ?_,
    h.scopes_eq.trans Array.size_modify, ?_⟩
  · rw [h.bindings, bindings_addBinding hlt hnew, List.append_assoc]
    rfl
  · rw [List.map_cons, h.entries, h.keeps.kind hold nofun, hkind]
  · rw [List.map_cons, h.nodes, hsize,
      List.Ico.eq_cons (Nat.lt_of_lt_of_le hold h.keeps.size_le)]
  · intro binding hbinding
    rcases List.mem_cons.mp hbinding with rfl | hmem
    · exact hleads.mono h.keeps.added
    · exact h.leads binding hmem

end Binds

/-! ## Inner scopes -/

section

variable {st st' : LowerState} {scope : Nat} {names : Names} {kind : ScopeKind}
  {parent : Option ScopeId}

theorem Ready.sound_addScope (h : Ready st scope names) (kind : ScopeKind) :
    Sound (addScope st kind (some scope)) :=
  h.sound.addScope kind fun _ hid => Option.some.inj hid ▸ h.scope_lt

variable {entries : List (String × NodeKind)} {frame : Bindings}

/-- The names that were bound in a new scope are all it has. -/
theorem Binds.bindings_inner
    (h : Binds st.scopes.scopes.size entries (addScope st kind parent) st' frame) :
    st'.scopes.bindings st.scopes.scopes.size = frame := by
  rw [h.bindings, bindings_addScope, List.nil_append]

theorem Binds.lt_inner
    (h : Binds st.scopes.scopes.size entries (addScope st kind parent) st' frame) :
    st.scopes.scopes.size < st'.scopes.scopes.size :=
  Nat.lt_of_lt_of_le (lt_size_addScope st kind parent) h.keeps.scopes_le

theorem Binds.size_inner
    (h : Binds st.scopes.scopes.size entries (addScope st kind parent) st' frame) :
    st'.scopes.scopes.size = st.scopes.scopes.size + 1 :=
  h.scopes_eq.trans (size_addScope st kind parent)

theorem Binds.keeps_inner
    (h : Binds st.scopes.scopes.size entries (addScope st kind parent) st' frame) :
    Keeps [] [st.scopes.scopes.size] st st' :=
  (keeps_addScope st kind parent).of_none.trans h.keeps

theorem Binds.kind_inner
    (h : Binds st.scopes.scopes.size entries (addScope st kind parent) st' frame) :
    st'.scopes.kind st.scopes.scopes.size = kind :=
  (h.keeps.scopeKind (lt_size_addScope st kind parent)).trans (kind_addScope st kind parent)

/-- A module that has what was made since has the scope where it was opened. -/
theorem Binds.inner (h : Binds st.scopes.scopes.size entries (addScope st kind (some scope)) st'
    frame) {nodes : List NodeId} {scopes : List ScopeId} {last : LowerState}
    (hkeeps : Keeps nodes scopes st' last) {m : Module}
    (hm : Agrees m st.graph.size st.scopes.scopes.size last) :
    m.scopes.Inner kind scope st.scopes.scopes.size where
  kind := by
    rw [hm.scopeKind (Nat.le_refl _) (Nat.lt_of_lt_of_le h.lt_inner hkeeps.scopes_le),
      hkeeps.scopeKind h.lt_inner, h.kind_inner]
  parent := by
    rw [hm.parent (Nat.le_refl _) (Nat.lt_of_lt_of_le h.lt_inner hkeeps.scopes_le),
      hkeeps.parent h.lt_inner, h.keeps.parent (lt_size_addScope st kind (some scope)),
      parent_addScope]

/-- An inner scope whose names have been bound: the state is ready for what stands in it. -/
theorem Ready.inner (h : Ready st scope names)
    (hbinds : Binds st.scopes.scopes.size entries (addScope st kind (some scope)) st' frame) :
    Ready st' st.scopes.scopes.size (frame :: names) := by
  have houter : Ready st' scope names := h.mono hbinds.sound hbinds.keeps_inner fun s hs => by
    rw [List.mem_singleton.mp hs]
    exact h.scope_lt
  have hparent := (hbinds.keeps.parent (lt_size_addScope st kind (some scope))).trans
    (parent_addScope st kind (some scope))
  have hsees := houter.sees.inner hbinds.sound hbinds.lt_inner hparent
  rw [hbinds.bindings_inner] at hsees
  refine ⟨hbinds.sound, hsees, hbinds.lt_inner, ?_⟩
  intro node hnode
  rcases List.mem_append.mp hnode with hown | houter'
  · obtain ⟨binding, hbinding, rfl⟩ := List.mem_map.mp hown
    exact hbinds.leads binding hbinding
  · exact houter.leads node houter'

end

section

variable {st st' : LowerState} {scope : Nat} {names : Names} {params : List Ident}
  {frame : Bindings}

/-- The placeholders that were bound for parameters are parameters of every module that has them. -/
theorem Ready.parameters {bound} (hready : Ready st scope names)
    (h : Binds st.scopes.scopes.size ((paramKeys 0 params).map (·, .placeholder))
      (addScope st .paramScope (some scope)) bound frame) (hkeeps : Keeps [] [] bound st') {m}
    (hm : Agrees m st.graph.size st.scopes.scopes.size st') : Parameters m names params frame := by
  refine ⟨?_, ?_, h.nodup, ?_⟩
  · have hkeys := congrArg (List.map Prod.fst) h.entries
    simpa [Function.comp_def] using hkeys
  · intro binding hbinding
    obtain ⟨hle, hlt⟩ := h.node_bounds hbinding
    obtain ⟨_, _, heq⟩ := List.mem_map.mp (h.entry_mem hbinding)
    rw [hm.kind hle (Nat.lt_of_lt_of_le hlt hkeeps.size_le), hkeeps.kind hlt nofun]
    exact (congrArg Prod.snd heq).symm
  · -- the names in scope lead to nodes that are older than the placeholders
    intro binding hbinding hmem
    have hlt := (hready.leads _ hmem).lt
    rw [hready.sound.length_added] at hlt
    exact Nat.not_lt.mpr (h.node_bounds hbinding).1 hlt

/-- A function: its parameters have a scope of their own, in which its body was lowered. -/
theorem Ready.makes_lambda {e bound id} (hready : Ready st scope names) (hne : params ≠ [])
    (hframe : Binds st.scopes.scopes.size ((paramKeys 0 params).map (·, .placeholder))
      (addScope st .paramScope (some scope)) bound frame)
    (hadds : Adds st bound (paramNodes params))
    (howns : LowersChild st.scopes.scopes.size (frame :: names) e bound id st') :
    LowersLambda scope names e st params (.lambda st.scopes.scopes.size id) st' := by
  obtain ⟨howns, hbody⟩ := howns
  have hlt := hframe.lt_inner
  -- nothing that is lowered later touches the scope of the parameters
  have hlast : st'.scopes.bindings st.scopes.scopes.size = frame :=
    (howns.keeps.bindings hlt nofun).trans hframe.bindings_inner
  have hkeeps : Keeps [] [] st st' := by
    refine (hframe.keeps_inner.trans howns.keeps.of_none).of_new nofun fun s hs => ?_
    exact Nat.le_of_eq (List.mem_singleton.mp hs).symm
  refine ⟨⟨howns.sound, hkeeps, ⟨by simp, by simp, ?_⟩, ?_⟩, hadds.trans hbody⟩
  · intro child hmem
    rw [List.mem_singleton.mp hmem]
    exact howns.added
  · intro m hm
    have hmbindings : m.scopes.bindings st.scopes.scopes.size = frame :=
      (hm.bindings (Nat.le_refl _) (Nat.lt_of_lt_of_le hlt howns.keeps.scopes_le)).trans hlast
    have hmbody := howns.holds m (hm.mono hframe.keeps_inner.size_le (Nat.le_of_lt hlt))
    rw [← hmbindings, hframe.size_inner] at hmbody
    rw [howns.size]
    refine .mk hne (hframe.inner howns.keeps hm) ?_ ?_ hframe.keeps_inner.size_le hmbody
    · rw [hmbindings]
      exact hready.parameters hframe howns.keeps hm
    · rw [hmbindings]
      exact hframe.nodes

/-! ## Blocks -/

/-- The bindings of a block and the nodes reserved for them. -/
inductive Reserved : List Decl → List (Option NodeId) → Bindings → Prop
  | nil : Reserved [] [] []
  | function {name params body span rest slot slots frame} (h : Reserved rest slots frame) :
      Reserved (.function name params body span :: rest) (some slot :: slots)
        ((name.name, slot) :: frame)
  | value {name body span rest slot slots frame} (h : Reserved rest slots frame) :
      Reserved (.value name body span :: rest) (some slot :: slots) ((name.name, slot) :: frame)
  | signature {ids span rest slots frame} (h : Reserved rest slots frame) :
      Reserved (.signature ids span :: rest) (none :: slots) frame

theorem Binds.of_reported {entries event} (h : Binds scope entries (reported st event) st' frame) :
    Binds scope entries st st' frame :=
  ⟨h.sound, (keeps_reported st event).of_none.trans h.keeps, h.bindings, h.entries, h.nodes,
    h.scopes_eq, h.leads⟩

/-- What the second phase of a block needs of the reserved nodes. -/
structure Slots (st : LowerState) (frame : Bindings) : Prop where
  lt : ∀ binding ∈ frame, binding.2 < st.graph.size
  reserved : ∀ binding ∈ frame, st.graph.kind binding.2 = .noForm
  nodup : (frame.map (·.2)).Nodup

/-- What the second phase of a block leaves behind. -/
structure Fills (st : LowerState) (inside : ScopeId) (names : Names) (decls : List Decl)
    (frame : Bindings) (st' : LowerState) : Prop where
  sound : Sound st'
  keeps : Keeps (frame.map (·.2)) [] st st'
  adds : Adds st st' (bodyNodes decls)
  holds : ∀ m, Agrees m st.graph.size st.scopes.scopes.size st' →
    (∀ binding ∈ frame, m.kind binding.2 = st'.graph.kind binding.2) →
    BuiltBlock m st.graph.size st'.graph.size st.scopes.scopes.size st'.scopes.scopes.size inside
      names decls frame

section

variable {middle : LowerState} {key : String} {slot : NodeId} {frame : Bindings} {kind : NodeKind}
  {P : Module → NodeKind → Prop}

theorem Slots.sound_fill (h : Slots st ((key, slot) :: frame)) (hmake : Makes st P kind middle) :
    Sound (fillNode middle slot kind) := by
  have hlt := h.lt _ List.mem_cons_self
  refine hmake.sound.fillNode hmake.fits (Nat.lt_of_lt_of_le hlt hmake.keeps.size_le) ?_
  rw [hmake.keeps.kind hlt nofun]
  exact h.reserved _ List.mem_cons_self

theorem Slots.next (h : Slots st ((key, slot) :: frame)) (hmake : Makes st P kind middle) :
    Slots (fillNode middle slot kind) frame := by
  have hnodup := h.nodup
  rw [List.map_cons, List.nodup_cons] at hnodup
  have hkeeps := (keeps_fillNode middle slot kind)
  refine ⟨?_, ?_, hnodup.2⟩
  · intro binding hbinding
    have hlt := h.lt binding (List.mem_cons_of_mem _ hbinding)
    exact Nat.lt_of_lt_of_le (Nat.lt_of_lt_of_le hlt hmake.keeps.size_le) hkeeps.size_le
  · intro binding hbinding
    have hlt := h.lt binding (List.mem_cons_of_mem _ hbinding)
    -- the slot that was filled is none of those that are left
    have hne : binding.2 ∉ [slot] := by
      rw [List.mem_singleton]
      rintro rfl
      exact hnodup.1 (List.mem_map.mpr ⟨binding, hbinding, rfl⟩)
    rw [hkeeps.kind (Nat.lt_of_lt_of_le hlt hmake.keeps.size_le) hne, hmake.keeps.kind hlt nofun]
    exact h.reserved binding (List.mem_cons_of_mem _ hbinding)

/-- A body is made and its node is filled, and then the rest of the block. -/
theorem Slots.fills (h : Slots st ((key, slot) :: frame)) (hmake : Makes st P kind middle)
    {made decl rest} (hadds : Adds st middle made)
    (hnodes : bodyNodes (decl :: rest) = made ++ bodyNodes rest)
    (hrest : Fills (fillNode middle slot kind) scope names rest frame st')
    (hdecl : ∀ m, P m (m.kind slot) → BuiltBlock m middle.graph.size st'.graph.size
        middle.scopes.scopes.size st'.scopes.scopes.size scope names rest frame →
      BuiltBlock m st.graph.size st'.graph.size st.scopes.scopes.size st'.scopes.scopes.size scope
        names (decl :: rest) ((key, slot) :: frame)) :
    Fills st scope names (decl :: rest) ((key, slot) :: frame) st' := by
  have hnodup := h.nodup
  rw [List.map_cons, List.nodup_cons] at hnodup
  have hlt := Nat.lt_of_lt_of_le (h.lt _ List.mem_cons_self) hmake.keeps.size_le
  have hlater : Keeps (((key, slot) :: frame).map (·.2)) [] middle st' := by
    refine ((keeps_fillNode middle slot kind).weaken ?_ nofun).trans (hrest.keeps.weaken ?_ nofun)
    · intro id hid _
      rw [List.mem_singleton.mp hid]
      exact List.mem_cons_self
    · intro id hid _
      exact List.mem_cons_of_mem _ hid
  refine ⟨hrest.sound, hmake.keeps.of_none.trans hlater, ?_, ?_⟩
  · exact hnodes ▸ (hadds.fillNode slot kind).trans hrest.adds
  intro m hm hslots
  -- the rest of the block fills other slots, so this one keeps its contents
  have hkind : m.kind slot = kind := by
    rw [hslots _ List.mem_cons_self,
      hrest.keeps.kind (Nat.lt_of_lt_of_le hlt (keeps_fillNode middle slot kind).size_le) hnodup.1]
    exact Graph.kind_fill_self kind hlt
  refine hdecl m ?_ ?_
  · rw [hkind]
    refine hmake.holds m (hm.earlier hlater ?_ nofun)
    intro id hid
    obtain ⟨binding, hbinding, rfl⟩ := List.mem_map.mp hid
    exact h.lt binding hbinding
  · have hstart := hmake.keeps.of_none.trans (keeps_fillNode middle slot kind)
    have hsize : (fillNode middle slot kind).graph.size = middle.graph.size :=
      Graph.size_fill _ _ _
    rw [← hsize]
    exact hrest.holds m (hm.mono hstart.size_le hstart.scopes_le) fun binding hbinding =>
      hslots binding (List.mem_cons_of_mem _ hbinding)

end

/-! ## Expressions -/

section

variable {middle last : LowerState} {P Q R S : Module → NodeKind → Prop} {kind : NodeKind}
  {arg : Nat} {decls : List Decl} {frame : Bindings}

theorem Owns.makes_application {func : Nat} (hfunc : Owns st P func middle)
    (harg : Owns middle Q arg st')
    (h : ∀ m, P m (m.kind func) → Q m (m.kind arg) → R m (.application func arg)) :
    Makes st R (.application func arg) st' := by
  refine ⟨harg.sound, hfunc.keeps.trans harg.keeps, ⟨by simp, by simp, ?_⟩, ?_⟩
  · intro child hchild
    rcases List.mem_cons.mp hchild with rfl | hrest
    · exact hfunc.added_later harg.keeps
    · rw [List.mem_singleton.mp hrest]
      exact harg.added
  · intro m hm
    refine h m (hfunc.holds_later harg.keeps hm) (harg.holds m ?_)
    exact hm.mono hfunc.keeps.size_le hfunc.keeps.scopes_le

theorem Owns.makes_conditional {test onTrue onFalse : Nat} (htest : Owns st P test middle)
    (htrue : Owns middle Q onTrue last) (hfalse : Owns last R onFalse st')
    (h : ∀ m, P m (m.kind test) → Q m (m.kind onTrue) → R m (m.kind onFalse) →
      S m (.conditional test onTrue onFalse)) :
    Makes st S (.conditional test onTrue onFalse) st' := by
  have hlater := htrue.keeps.trans hfalse.keeps
  have hstart := htest.keeps.trans htrue.keeps
  refine ⟨hfalse.sound, htest.keeps.trans hlater, ⟨by simp, by simp, ?_⟩, ?_⟩
  · intro child hchild
    rcases List.mem_cons.mp hchild with rfl | hrest
    · exact htest.added_later hlater
    · rcases List.mem_cons.mp hrest with rfl | hrest
      · exact htrue.added_later hfalse.keeps
      · rw [List.mem_singleton.mp hrest]
        exact hfalse.added
  · intro m hm
    refine h m (htest.holds_later hlater hm) ?_ (hfalse.holds m ?_)
    · exact htrue.holds_later hfalse.keeps (hm.mono htest.keeps.size_le htest.keeps.scopes_le)
    · exact hm.mono hstart.size_le hstart.scopes_le

theorem Binds.slots (h : Binds scope (blockEntries decls) st st' frame) : Slots st' frame := by
  refine ⟨fun b hb => (h.node_bounds hb).2, ?_, h.nodup⟩
  intro binding hbinding
  obtain ⟨decl, _, hdecl⟩ := List.mem_filterMap.mp (h.entry_mem hbinding)
  obtain ⟨name, _, heq⟩ := Option.map_eq_some_iff.mp hdecl
  exact (congrArg Prod.snd heq).symm

/-- A block and the body in its scope; at the end its names are forgotten. -/
theorem makes_let {reserved filled e span}
    (hbinds : Binds st.scopes.scopes.size (blockEntries decls)
      (addScope st .letScope (some scope)) reserved frame)
    (hadds : Adds st reserved (blockNodes decls))
    (hfills : Fills reserved st.scopes.scopes.size (frame :: names) decls frame filled)
    (hbody : Lowers st.scopes.scopes.size (frame :: names) e filled kind middle) :
    Lowers scope names (.letIn decls e span) st kind
      (releaseScope middle st.scopes.scopes.size) := by
  obtain ⟨hbody, hadds'⟩ := hbody
  have hlt := hbinds.lt_inner
  have hclose := keeps_releaseScope middle st.scopes.scopes.size
  have hlater : Keeps [] [st.scopes.scopes.size] filled
      (releaseScope middle st.scopes.scopes.size) := hbody.keeps.of_none.trans hclose
  have hstart := hbinds.keeps_inner
  refine ⟨⟨hbody.sound.releaseScope _, ?_, hbody.fits, ?_⟩, hadds.trans (hfills.adds.trans hadds')⟩
  · -- the nodes that were filled and the scope that is forgotten are all new
    have hall : Keeps (frame.map (·.2)) [st.scopes.scopes.size] st
        (releaseScope middle st.scopes.scopes.size) :=
      (hstart.weaken nofun fun _ h _ => h).trans
        ((hfills.keeps.weaken (fun _ h _ => h) nofun).trans (hlater.weaken nofun fun _ h _ => h))
    refine hall.of_new ?_ ?_
    · intro id hid
      obtain ⟨binding, hbinding, rfl⟩ := List.mem_map.mp hid
      exact (hbinds.node_bounds hbinding).1
    · intro id hid
      exact Nat.le_of_eq (List.mem_singleton.mp hid).symm
  · intro m hm
    have hinner : ∀ id ∈ [st.scopes.scopes.size], id < reserved.scopes.scopes.size := by
      intro id hid
      rw [List.mem_singleton.mp hid]
      exact hlt
    -- what was made stays as it is when the names of the block are forgotten
    have hwhole : Keeps (frame.map (·.2)) [st.scopes.scopes.size] reserved
        (releaseScope middle st.scopes.scopes.size) :=
      (hfills.keeps.weaken (fun _ h _ => h) nofun).trans (hlater.weaken nofun fun _ h _ => h)
    have hblock := hfills.holds m
      ((hm.mono hstart.size_le hstart.scopes_le).earlier hlater nofun hinner)
      fun binding hbinding => by
        obtain ⟨hle, hlt''⟩ := hbinds.node_bounds hbinding
        have hfilled := Nat.lt_of_lt_of_le hlt'' hfills.keeps.size_le
        rw [hm.kind hle (Nat.lt_of_lt_of_le hfilled hlater.size_le), hlater.kind hfilled nofun]
    have hm' := hm.mono (Nat.le_trans hstart.size_le hfills.keeps.size_le)
      (Nat.le_trans hstart.scopes_le hfills.keeps.scopes_le)
    have hbuilt := hbody.holds m (hm'.earlier hclose nofun fun id hid =>
      Nat.lt_of_lt_of_le (hinner id hid) hfills.keeps.scopes_le)
    rw [hbinds.size_inner] at hblock
    rw [size_releaseScope]
    exact .letIn (hbinds.inner hwhole hm) hbinds.nodes hstart.size_le hblock hbuilt

end

end

/-! ## The names that are visible -/

/-- What is in scope is what the regions around a place have. -/
structure Placed (st : LowerState) (scope : Nat) (names : Names) (regions : List Region) :
    Prop where
  ready : Ready st scope names
  shows : st.scopes.snapshot scope = regions.map Region.frame
  tells : ∀ region ∈ regions, region.Tells

section

variable {st st' : LowerState} {scope : Nat} {names : Names} {regions : List Region}

/-- What a name was lowered to; nothing was made for it. -/
def LowersName (names : Names) (name : String) (st : LowerState) (kind : NodeKind)
    (st' : LowerState) : Prop :=
  Makes st (fun _ kind => Resolves names name kind) kind st' ∧ Adds st st' [] ∧
    st'.graph.size = st.graph.size ∧ st'.scopes = st.scopes

namespace Placed

variable {frame : Bindings} {use : Use} {id : Ident}

theorem visible_iff (h : Placed st scope names regions) {name : String} (hname : SourceName name) :
    Visible regions name ↔ (st.scopes.lookup scope name).isSome := by
  rw [← ScopeTree.contains_snapshot, h.shows]
  exact (contains_frames_iff h.tells hname).symm

/-- A run that leaves the chain of scopes alone. -/
theorem mono (h : Placed st scope names regions) {nodes scopes} (sound : Sound st')
    (hkeeps : Keeps nodes scopes st st') (hscopes : ∀ s ∈ scopes, scope < s) :
    Placed st' scope names regions := by
  refine ⟨h.ready.mono sound hkeeps hscopes, Eq.trans ?_ h.shows, h.tells⟩
  exact hkeeps.map_chain h.ready.sound sound h.ready.scope_lt hscopes
    fun kind frame => Frame.mk kind (frame.map (·.1))

/-- An inner scope whose names have been bound, and the region that has them. -/
theorem inner (h : Placed st scope names regions) {entries kind region}
    (hbinds : Binds st.scopes.scopes.size entries (addScope st kind (some scope)) st' frame)
    (hframe : region.frame = ⟨kind, frame.map (·.1)⟩) (htells : region.Tells) :
    Placed st' st.scopes.scopes.size (frame :: names) (region :: regions) := by
  have houter := h.mono hbinds.sound hbinds.keeps_inner fun s hs => by
    rw [List.mem_singleton.mp hs]
    exact h.ready.scope_lt
  have hparent := (hbinds.keeps.parent (lt_size_addScope st kind (some scope))).trans
    (parent_addScope st kind (some scope))
  refine ⟨h.ready.inner hbinds, ?_, List.forall_mem_cons.mpr ⟨htells, h.tells⟩⟩
  rw [ScopeTree.snapshot, ScopeTree.chain_of_parent hbinds.sound.parent_lt hbinds.lt_inner hparent,
    List.map_cons, List.map_cons, hframe, ← houter.shows, ScopeTree.localNames,
    hbinds.bindings_inner, hbinds.kind_inner]
  rfl

/-- A body of a block was made, and its node is filled. -/
theorem fill (h : Placed st scope names regions) {key slot P kind}
    (hslots : Slots st ((key, slot) :: frame)) (hmake : Makes st P kind st') :
    Placed (fillNode st' slot kind) scope names regions :=
  h.mono (hslots.sound_fill hmake) (hmake.keeps.of_none.trans (keeps_fillNode st' slot kind))
    (List.forall_mem_nil _)

/-- A name that is in scope. -/
theorem known (h : Placed st scope names regions) (hname : SourceName use.id.name)
    (hregions : use.regions = regions) {target : NodeId}
    (hlookup : st.scopes.lookup scope use.id.name = some target) : use.Known options := by
  refine .inl (use.isSome_binder?.mpr ?_)
  rw [hregions, h.visible_iff hname, hlookup]
  rfl

/-- A name that is not in scope: all that is visible comes with the error. -/
theorem blames_unresolved (h : Placed st scope names regions) (hname : SourceName use.id.name)
    (hregions : use.regions = regions) (hlookup : st.scopes.lookup scope use.id.name = none)
    (hop : use.isOperator = true →
      ¬ (options.strict = false ∧ (Intrinsic.ofSourceName? use.id.name).isSome)) :
    (Site.use use).Blames options
      (.unresolved use.id.name (st.scopes.snapshot scope) use.id.span) := by
  have hhidden : ¬ Visible use.regions use.id.name := by
    rw [hregions, h.visible_iff hname, hlookup]
    nofun
  rw [h.shows, ← hregions]
  refine .unresolved ?_ ?_ fun region hregion => (h.tells region (hregions ▸ hregion)).sublist
  · rintro (hsome | ⟨hopname, hcatalog⟩)
    · exact hhidden (use.isSome_binder?.mp hsome)
    · exact hop hopname hcatalog
  · refine Bool.eq_false_iff.mpr (mt (contains_frames_iff ?_ hname).mp hhidden)
    exact hregions ▸ h.tells

theorem checks_plainName (h : Placed st scope names regions) (hname : SourceName id.name)
    (node : NodeId) : Checks options [.use ⟨id, false, regions, node⟩] (plainName scope id) st
      (LowersName names id.name st) := by
  refine .bind_of_ok (x := get) rfl ?_
  cases hlookup : st.scopes.lookup scope id.name with
  | some target =>
    exact .of_ok rfl (List.forall_mem_singleton.mpr (h.known hname rfl hlookup))
      ⟨h.ready.makes_bound hlookup, .refl st, rfl, rfl⟩
  | none =>
    exact .of_error rfl (List.mem_singleton_self _)
      (h.blames_unresolved hname rfl hlookup nofun)

theorem checks_operator (h : Placed st scope names regions) (hname : SourceName id.name)
    (node : NodeId) : Checks options [.use ⟨id, true, regions, node⟩] (operator options scope id) st
      (LowersName names id.name st) := by
  refine .bind_of_ok (x := get) rfl ?_
  cases hlookup : st.scopes.lookup scope id.name with
  | some target =>
    exact .of_ok rfl (List.forall_mem_singleton.mpr (h.known hname rfl hlookup))
      ⟨h.ready.makes_bound hlookup, .refl st, rfl, rfl⟩
  | none =>
    dsimp only
    -- bound nowhere: the catalog has the operator, unless lowering is strict
    cases hcatalog : if options.strict then none else Intrinsic.ofSourceName? id.name with
    | some op =>
      obtain ⟨hstrict, hop⟩ : options.strict = false ∧
          Intrinsic.ofSourceName? id.name = some op := by
        cases hstrict : options.strict <;> simp_all
      refine .of_ok rfl (List.forall_mem_singleton.mpr (.inr ⟨rfl, hstrict, by rw [hop]; rfl⟩))
        ⟨⟨h.ready.sound.reported _, keeps_reported st _, .of_successors nofun rfl, fun _ _ => ?_⟩,
          .refl st, rfl, rfl⟩
      exact .catalog ((h.ready.sees.lookup id.name).symm.trans hlookup) hop
    | none =>
      refine .of_error rfl (List.mem_singleton_self _)
        (h.blames_unresolved hname rfl hlookup fun _ hknown => ?_)
      rw [hknown.1] at hcatalog
      simp_all

end Placed

/-! ## Parameters and names of blocks -/

/-- Where some parameters have been bound, the rest must have names of their own. -/
theorem checks_bindParams {done rest} (hnames : ∀ param ∈ done ++ rest, SourceName param.name)
    (sound : Sound st) (hlt : scope < st.scopes.scopes.size)
    (hkeys : (st.scopes.bindings scope).map (·.1) = paramKeys 0 done)
    (hnodup : (paramKeys 0 done).Nodup) (region : Region) :
    Checks options [.parameters (done ++ rest) region] (bindParams scope done.length rest) st
      fun _ st' => ∃ frame,
        Binds scope ((paramKeys done.length rest).map (·, .placeholder)) st st' frame ∧
          Adds st st' (paramNodes rest) := by
  induction rest generalizing done st with
  | nil =>
    refine .of_ok rfl (List.forall_mem_singleton.mpr ?_) ⟨[], .nil sound, .refl st⟩
    rw [List.append_nil]
    exact hnodup.sublist (names_sublist_paramKeys 0 done)
  | cons param rest ih =>
    have hparam := hnames param (by simp)
    have hnext : paramKey done.length param ∉ (st.scopes.bindings scope).map (·.1) →
        Checks options [.parameters (done ++ param :: rest) region]
          (bindParams scope (done.length + 1) rest)
          (addBinding st scope (paramKey done.length param) .placeholder param.name)
          fun _ st' => ∃ frame,
            Binds scope ((paramKeys done.length (param :: rest)).map (·, .placeholder)) st st'
              frame ∧ Adds st st' (paramNodes (param :: rest)) := by
      intro hnew
      have hkeeps :=
        Binds.keeps_addBinding st scope (paramKey done.length param) .placeholder param.name
      have hlength : done.length + 1 = (done ++ [param]).length := by simp
      rw [List.append_cons] at hnames ⊢
      rw [hlength]
      refine (ih hnames (Binds.sound_addBinding sound _ rfl _)
        (Nat.lt_of_lt_of_le hlt hkeeps.scopes_le) ?_ ?_).imp ?_
      · rw [Binds.bindings_addBinding hlt hnew, List.map_append, hkeys, paramKeys_snoc,
          Nat.zero_add]
        rfl
      · rw [paramKeys_snoc, Nat.zero_add, List.nodup_middle, List.append_nil]
        exact List.nodup_cons.mpr ⟨hkeys ▸ hnew, hnodup⟩
      · rintro _ st' ⟨frame, hframe, hadds⟩
        rw [← hlength] at hframe
        exact ⟨_, hframe.cons hlt hnew (.inr (.inl (Binds.added_addBinding sound _ _ _))),
          ((Adds.refl st).addNode _ _).trans hadds⟩
    refine .bind_of_ok (x := alloc .placeholder (some param.name)) rfl ?_
    by_cases hwild : param.name = "_"
    · -- a wildcard needs no check: its index is in its name
      rw [if_pos hwild]
      have hbefore := wildcard_not_mem_paramKeys (fun other hother =>
        hnames other (List.mem_append_left _ hother)) (Nat.le_of_eq (Nat.zero_add done.length))
      rw [paramKey, if_pos hwild] at hnext
      exact .bind_of_ok (x := Lowering.bind scope _ _) rfl (hnext (hkeys ▸ hbefore))
    · rw [if_neg hwild]
      rw [paramKey, if_neg hwild] at hnext
      refine .fresh (fun hmem => .paramTwice hwild ?_) fun hnew =>
        .bind_of_ok (x := Lowering.bind scope _ _) rfl (hnext hnew)
      have hkey : param.name ∈ paramKeys 0 done := hkeys ▸ hmem
      exact (List.mem_filter.mp ((mem_paramKeys_iff hparam 0 done).mp hkey)).1

/-- Where some names of a block have been reserved, the rest must bind other names and must not be
refused. -/
theorem checks_reserveBlock {done rest} (sound : Sound st) (hlt : scope < st.scopes.scopes.size)
    (hkeys : (st.scopes.bindings scope).map (·.1) = declNames done) (hdone : Bindable done)
    (region : Region) :
    Checks options [.block (done ++ rest) region] (reserveBlock scope rest) st
      fun slots st' => ∃ frame,
        Binds scope (blockEntries rest) st st' frame ∧ Reserved rest slots frame ∧
          Adds st st' (blockNodes rest) := by
  induction rest generalizing done st with
  | nil =>
    refine .of_ok rfl (List.forall_mem_singleton.mpr ?_) ⟨[], .nil sound, .nil, .refl st⟩
    rw [List.append_nil]
    exact hdone
  | cons decl rest ih =>
    have hbinding : ∀ name : Ident, decl.bound? = some name → Supported decl →
        (∀ {slot slots frame},
          Reserved rest slots frame →
          Reserved (decl :: rest) (some slot :: slots) ((name.name, slot) :: frame)) →
        Checks options [.block (done ++ decl :: rest) region] (do
          requireFresh scope name
          let slot ← alloc .noForm (some name.name)
          Lowering.bind scope name.name slot
          report (.reserved slot name.name)
          return some slot :: (← reserveBlock scope rest) : LowerM (List (Option NodeId))) st
          fun slots st' => ∃ frame,
            Binds scope (blockEntries (decl :: rest)) st st' frame ∧
              Reserved (decl :: rest) slots frame ∧ Adds st st' (blockNodes (decl :: rest)) := by
      intro name hname hsupported hreserved
      refine .fresh (fun hmem => .boundTwice hname (hkeys ▸ hmem)) fun hnew => ?_
      refine .bind_of_ok (x := alloc .noForm _) rfl ?_
      refine .bind_of_ok (x := Lowering.bind scope _ _) rfl ?_
      refine .bind_of_ok (x := report _) rfl ?_
      have hkeeps := Binds.keeps_addBinding st scope name.name .noForm name.name
      have hnames : declNames (done ++ [decl]) = declNames done ++ [name.name] := by
        rw [declNames_append]
        simp [declNames, hname]
      have hentries : blockEntries (decl :: rest) = (name.name, .noForm) :: blockEntries rest := by
        simp [blockEntries, hname]
      rw [List.append_cons, blockNodes, hentries]
      refine (ih ((Binds.sound_addBinding sound _ rfl _).reported _)
        (Nat.lt_of_lt_of_le hlt hkeeps.scopes_le) ?_ ⟨?_, ?_⟩).and_then ?_
      · show ((addBinding st scope name.name .noForm name.name).scopes.bindings scope).map (·.1) =
          _
        rw [Binds.bindings_addBinding hlt hnew, List.map_append, hkeys, hnames]
        rfl
      · rw [hnames, List.nodup_middle, List.append_nil]
        exact List.nodup_cons.mpr ⟨hkeys ▸ hnew, hdone.1⟩
      · exact List.forall_mem_append.mpr ⟨hdone.2, List.forall_mem_singleton.mpr hsupported⟩
      · rintro slots st' ⟨frame, hframe, hrest, hadds⟩
        exact ⟨_, _, rfl, _, hframe.of_reported.cons hlt hnew
          (.inl (Binds.added_addBinding sound _ _ _)), hreserved hrest,
          ((Adds.refl st).addNode _ _).trans hadds⟩
    cases decl with
    | function name params body span => exact hbinding name rfl trivial .function
    | value name body span => exact hbinding name rfl trivial .value
    | signature ids span =>
      have hnames : declNames (done ++ [.signature ids span]) = declNames done := by
        simp [declNames, Decl.bound?]
      refine .bind_of_ok (x := report _) rfl ?_
      rw [List.append_cons]
      refine (ih (sound.reported _) hlt (hkeys.trans hnames.symm) ⟨hnames ▸ hdone.1, ?_⟩).and_then
        fun slots st' hslots => ⟨_, _, rfl, ?_⟩
      · exact List.forall_mem_append.mpr ⟨hdone.2, List.forall_mem_singleton.mpr trivial⟩
      · obtain ⟨frame, hframe, hreserved, hadds⟩ := hslots
        exact ⟨frame, hframe.of_reported, .signature hreserved, hadds⟩
    | unsupported what span =>
      exact .of_error rfl (List.mem_singleton_self _) (.unsupported (by simp))

/-- The names of a block in a scope of its own. -/
theorem checks_reserveBlock_inner {kind : ScopeKind} (h : Ready st scope names) (decls : List Decl)
    (region : Region) :
    Checks options [.block decls region] (reserveBlock st.scopes.scopes.size decls)
      (addScope st kind (some scope)) fun slots st' => ∃ frame,
        Binds st.scopes.scopes.size (blockEntries decls) (addScope st kind (some scope)) st' frame ∧
          Reserved decls slots frame ∧ Adds st st' (blockNodes decls) :=
  @checks_reserveBlock options _ _ [] decls (h.sound_addScope kind) (lt_size_addScope _ _ _)
    (by rw [bindings_addScope]; rfl) ⟨List.nodup_nil, List.forall_mem_nil _⟩ region

theorem checks_lambda {params e body} (h : Placed st scope names regions)
    (hparams : FormedParams params) (path : Path) (first : NodeId) {sites}
    (hbody : ∀ {s inner frame region},
      Placed s inner (frame :: names) (region :: regions) → ∀ start,
      Checks options (sites start (region :: regions)) (body inner) s
        (Lowers inner (frame :: names) e s)) :
    Checks options (lambdaSites path first regions params sites) (lambda scope params body) st
      (LowersLambda scope names e st params) := by
  have hempty := bindings_addScope st .paramScope (some scope)
  refine .bind_of_ok (x := openScope .paramScope (some scope)) rfl ?_
  have hbind := @checks_bindParams options _ _ [] params hparams.names
    (h.ready.sound_addScope .paramScope) (lt_size_addScope _ _ _) (by rw [hempty]; rfl)
    List.nodup_nil (paramRegion (0 :: path) first params)
  refine hbind.bind fun _ bound hbound => ?_
  obtain ⟨frame, hframe, hadds⟩ := hbound
  have hframeKeys : frame.map (·.1) = paramKeys 0 params := by
    simpa [Function.comp_def] using hframe.keys
  have hinner : Placed bound st.scopes.scopes.size (frame :: names)
      (paramRegion (0 :: path) first params :: regions) :=
    h.inner hframe (by rw [hframeKeys]; rfl) (tells_paramRegion _ _ _)
  exact (hbody hinner _).child.and_then fun _ _ howns =>
    ⟨_, _, rfl, h.ready.makes_lambda hparams.ne_nil hframe hadds howns⟩

end

end Lamina.Core.Lowering
