import Lamina.Proofs.Core.Makes
import Lamina.Proofs.Core.Ledger
import Lamina.Proofs.Core.ScopeTable
import Lamina.Proofs.Core.Shape

/-!
# Lowering makes lowered graphs

The recursion of lowering, over expressions and the bindings of blocks, and from it what lowering a
whole module yields. A module is lowered in three phases: the prelude is bound (`prepared`), the
declarations are lowered (`block`), and the result is looked over (`finish`). Only the second can
make lowering fail, and then a site of the text is to blame (`lowerModule_checks`).
-/

namespace Lamina.Core

open Lamina.Surface (Expr Decl FormedDecls)

variable {options : LowerOptions} {tree : Surface.Module} {m : Module}

namespace Lowering

variable {st st' : LowerState} {m : Module} {entries : List (Intrinsic × String)} {frame : Bindings}

mutual

/-- Lowering an expression checks its sites, and makes a graph for it from nodes that it adds one
after the other. -/
theorem checks_expr (options : LowerOptions) {st scope names regions}
    (h : Placed st scope names regions) (path : Path) (first node : NodeId) :
    (e : Expr) → e.Formed →
      Checks options (exprSites path first node regions e) (expr options scope e) st
        (Lowers scope names e st)
  | .var id, hformed => by
    have hname : Checks options (exprSites path first node regions (.var id))
        (expr options scope (.var id)) st (LowersName names id.name st) := by
      rw [expr, exprSites]
      split
      · rename_i hop
        rw [hop]
        exact h.checks_operator hformed node
      · rename_i hop
        rw [Bool.eq_false_iff.mpr hop]
        exact h.checks_plainName hformed node
    refine hname.imp fun kind st' hmake => ?_
    obtain ⟨hmake, hadds, hsize, hscopes⟩ := hmake
    rw [Lowers, hsize, hscopes]
    exact ⟨hmake.imp fun m hresolves => .var hresolves, hadds⟩
  | .con _, _ => .of_ok rfl (List.forall_mem_nil _)
      ⟨⟨h.ready.sound, Keeps.refl _, .of_successors nofun rfl, fun _ _ => .con⟩, .refl st⟩
  | .lit .., _ => .of_ok rfl (List.forall_mem_nil _)
      ⟨⟨h.ready.sound, Keeps.refl _, .of_successors nofun rfl, fun _ _ => .lit⟩, .refl st⟩
  | .neg arg _, hformed => by
    -- the intrinsic gets a node of its own, which is made on the spot
    have hmake : Makes st (fun _ kind => kind = .intrinsic .negate) (.intrinsic .negate) st :=
      ⟨h.ready.sound, Keeps.refl st, .of_successors nofun rfl, fun _ _ => rfl⟩
    have hfunc := hmake.owns (some "negate")
    have h' := h.mono hfunc.sound hfunc.keeps nofun
    rw [expr, exprSites]
    refine .bind_of_ok (x := alloc _ _) rfl ?_
    refine (checks_expr options h' _ _ _ arg hformed).child.and_then
      fun id st' harg => ⟨_, _, rfl, ?_⟩
    obtain ⟨harg, hadds⟩ := harg
    rw [Lowers, harg.size]
    rw [hfunc.size] at harg
    exact ⟨hfunc.makes_application harg fun m => .neg, ((Adds.refl st).addNode _ _).trans hadds⟩
  | .binOp op lhs rhs _, hformed => by
    rw [expr, exprSites]
    refine (h.checks_operator hformed.1 first).bind fun kind middle hop => ?_
    obtain ⟨hop, hadds, hsize, hscopes⟩ := hop
    have hfunc := hop.owns none
    refine .bind_of_ok (x := alloc kind none) rfl ?_
    have h' := h.mono hfunc.sound hfunc.keeps nofun
    refine (checks_expr options h' _ _ _ lhs hformed.2.1).child.bind fun lhsId middle' hlhs => ?_
    obtain ⟨hlhs, hadds'⟩ := hlhs
    -- the operator and its left side are a node of their own, and then an operand
    have hpair := hfunc.makes_application hlhs
      (R := fun m kind => kind = .application st.graph.size lhsId ∧
        Resolves names op.name (m.kind st.graph.size) ∧
        Built m (st.graph.size + 1) lhsId st.scopes.scopes.size _ scope names lhs (m.kind lhsId))
      fun m hf hl => by
        rw [hfunc.size, hsize] at hl
        exact ⟨by rw [hsize], hsize ▸ hf, hscopes ▸ hl⟩
    have happlied := hpair.owns none
    refine .bind_of_ok (x := alloc _ none) rfl ?_
    have h'' := h.mono happlied.sound happlied.keeps nofun
    refine (checks_expr options h'' _ _ _ rhs hformed.2.2).child.and_then
      fun rhsId st' hrhs => ⟨_, _, rfl, ?_⟩
    obtain ⟨hrhs, hadds''⟩ := hrhs
    rw [Lowers, hrhs.size]
    refine ⟨happlied.makes_application hrhs fun m ha hr => ?_, ?_⟩
    · rw [happlied.size, hlhs.size] at hr
      rw [hlhs.size] at ha ⊢
      exact .binOp ha.2.1 ha.2.2 ha.1 hr
    · simpa [exprNodes] using
        (((hadds.addNode kind none).trans hadds').addNode _ none).trans hadds''
  | .app func arg _, hformed => by
    rw [expr, exprSites]
    refine (checks_expr options h _ _ _ func hformed.1).child.bind fun funcId middle hfunc => ?_
    obtain ⟨hfunc, hadds⟩ := hfunc
    have h' := h.mono hfunc.sound hfunc.keeps nofun
    refine (checks_expr options h' _ _ _ arg hformed.2).child.and_then
      fun argId st' harg => ⟨_, _, rfl, ?_⟩
    obtain ⟨harg, hadds'⟩ := harg
    rw [Lowers, harg.size]
    refine ⟨hfunc.makes_application harg fun m hf ha => .app hf (hfunc.size ▸ ha), ?_⟩
    simpa [exprNodes] using hadds.trans hadds'
  | .cond test onTrue onFalse _, hformed => by
    rw [expr, exprSites]
    refine (checks_expr options h _ _ _ test hformed.1).child.bind fun testId middle htest => ?_
    obtain ⟨htest, hadds⟩ := htest
    have h' := h.mono htest.sound htest.keeps nofun
    refine (checks_expr options h' _ _ _ onTrue hformed.2.1).child.bind
      fun trueId middle' htrue => ?_
    obtain ⟨htrue, hadds'⟩ := htrue
    have h'' := h'.mono htrue.sound htrue.keeps nofun
    refine (checks_expr options h'' _ _ _ onFalse hformed.2.2).child.and_then
      fun falseId st' hfalse => ⟨_, _, rfl, ?_⟩
    obtain ⟨hfalse, hadds''⟩ := hfalse
    rw [Lowers, hfalse.size]
    refine ⟨htest.makes_conditional htrue hfalse fun m hc ht he =>
      .cond hc (htest.size ▸ ht) (htrue.size ▸ he), ?_⟩
    simpa [exprNodes] using hadds.trans (hadds'.trans hadds'')
  | .letIn decls body _, hformed => by
    rw [expr, exprSites]
    refine .bind_of_ok (x := openScope .letScope (some scope)) rfl ?_
    -- names first and contents later, so that a binding may use any other one
    refine (checks_reserveBlock_inner h.ready decls _).bind fun slots reserved hreserved => ?_
    obtain ⟨frame, hbinds, hslots, hadds⟩ := hreserved
    have hinner : Placed reserved st.scopes.scopes.size (frame :: names)
        (blockRegion .letScope (0 :: path) first decls :: regions) :=
      h.inner hbinds (by rw [hbinds.keys, map_fst_blockEntries]; rfl) (tells_blockRegion _ _ _ _)
    refine (checks_fillBlock options hinner hbinds.slots _ _ _ _ decls hformed.1 hslots).bind
      fun _ filled hfills => ?_
    have h' := hinner.mono hfills.sound hfills.keeps nofun
    exact (checks_expr options h' _ _ _ body hformed.2).and_then fun _ _ hbody =>
      ⟨_, _, rfl, makes_let hbinds hadds hfills hbody⟩
  | .lambda params body _, hformed => by
    rw [expr, exprSites]
    exact (checks_lambda h hformed.1 path first fun hinner start =>
      checks_expr options hinner _ _ _ body hformed.2).imp fun _ _ hmake =>
        ⟨hmake.1.imp fun _ => .lambda, hmake.2⟩
  | .caseOf .., _ | .doBlock _, _ | .tuple .., _ | .list .., _ => by
    rw [expr, exprSites]
    exact .of_error rfl List.mem_cons_self .refused

/-- The second phase of a block checks the sites of its bodies, and makes a graph for them. -/
theorem checks_fillBlock (options : LowerOptions) {st scope names regions slots frame}
    (h : Placed st scope names regions) (hslots : Slots st frame) (path : Path) (index : Nat)
    (first slot : NodeId) :
    (decls : List Decl) → FormedDecls decls → Reserved decls slots frame →
      Checks options (bodySites path index first slot regions decls)
        (fillBlock options scope decls slots) st fun _ => Fills st scope names decls frame
  | [], _, hreserved => by
    cases hreserved
    exact .of_ok rfl (List.forall_mem_nil _)
      ⟨h.ready.sound, Keeps.refl _, .refl st, fun _ _ _ => .nil⟩
  | .function name params body span :: rest, hformed, .function hreserved => by
    rw [fillBlock, bodySites]
    refine (checks_lambda h hformed.1.1 _ _ fun hinner start =>
      checks_expr options hinner _ _ _ body hformed.1.2).bind fun kind middle hmake => ?_
    refine .bind_of_ok (x := fill _ kind) rfl ?_
    exact (checks_fillBlock options (h.fill hslots hmake.1) (hslots.next hmake.1) _ _ _ _ rest
      hformed.2 hreserved).imp fun _ _ hrest =>
        hslots.fills hmake.1 hmake.2 rfl hrest fun _ => .function
  | .value name body span :: rest, hformed, .value hreserved => by
    rw [fillBlock, bodySites]
    refine (checks_expr options h _ _ _ body hformed.1).bind fun kind middle hmake => ?_
    refine .bind_of_ok (x := fill _ kind) rfl ?_
    exact (checks_fillBlock options (h.fill hslots hmake.1) (hslots.next hmake.1) _ _ _ _ rest
      hformed.2 hreserved).imp fun _ _ hrest =>
        hslots.fills hmake.1 hmake.2 rfl hrest fun _ => .value
  | .signature ids span :: rest, hformed, .signature hreserved => by
    rw [bodySites]
    exact (checks_fillBlock options h hslots _ _ _ _ rest hformed hreserved).imp fun _ _ hrest =>
      ⟨hrest.sound, hrest.keeps, hrest.adds, fun m hm hm' => .signature (hrest.holds m hm hm')⟩
  | .unsupported what span :: rest, _, hreserved => by cases hreserved

end

/-! ## The prelude -/

/-- The state with intrinsics bound in a scope. -/
def bindAll (scope : ScopeId) : List (Intrinsic × String) → LowerState → LowerState
  | [], st => st
  | (op, name) :: rest, st =>
    bindAll scope rest (bindName (addNode st (.intrinsic op) (some name)) scope name st.graph.size)

theorem bindIntrinsics_eq (scope : ScopeId) (entries : List (Intrinsic × String))
    (st : LowerState) : bindIntrinsics scope entries st = (.ok (), bindAll scope entries st) := by
  induction entries generalizing st with
  | nil => rfl
  | cons entry rest ih => exact ih _

theorem preludeNames_nodup (operators : Bool) : ((preludeNames operators).map (·.2)).Nodup := by
  cases operators <;> decide

/-- Where only intrinsics were added, more of them can be bound. -/
theorem binds_bindAll {scope : Nat} (entries : List (Intrinsic × String)) (sound : Sound st)
    (hlt : scope < st.scopes.scopes.size)
    (hnodup : ((st.scopes.bindings scope).map (·.1) ++ entries.map (·.2)).Nodup)
    (honly : ∀ i < st.graph.size, ∃ op, st.history.added[i]? = some (.intrinsic op)) :
    ∃ frame, Binds scope (entries.map fun entry => (entry.2, .intrinsic entry.1)) st
        (bindAll scope entries st) frame ∧
      Adds st (bindAll scope entries st)
        ((entries.map fun entry => (entry.2, .intrinsic entry.1)).map some) := by
  induction entries generalizing st with
  | nil => exact ⟨[], .nil sound, .refl st⟩
  | cons entry rest ih =>
    obtain ⟨op, name⟩ := entry
    -- a name that was bound already would keep its place
    have hnew : name ∉ (st.scopes.bindings scope).map (·.1) := by
      intro hmem
      exact (List.nodup_append.mp hnodup).2.2 name hmem name List.mem_cons_self rfl
    have hkeeps := Binds.keeps_addBinding st scope name (.intrinsic op) name
    have honly' : ∀ i < st.graph.size + 1, ∃ op',
        (addBinding st scope name (.intrinsic op) name).history.added[i]? =
          some (.intrinsic op') := by
      intro i hi
      rcases Nat.lt_succ_iff_lt_or_eq.mp hi with hold | rfl
      · exact (honly i hold).imp fun _ => History.getElem?_of_isPrefix hkeeps.added
      · exact ⟨op, Binds.added_addBinding sound _ _ _⟩
    obtain ⟨frame, hframe, hadds⟩ := ih (Binds.sound_addBinding sound name rfl name)
      (Nat.lt_of_lt_of_le hlt hkeeps.scopes_le)
      (by
        rw [Binds.bindings_addBinding hlt hnew]
        simpa [List.append_assoc] using hnodup)
      (by
        rw [show (addBinding st scope name (.intrinsic op) name).graph.size = _ from
          Graph.size_alloc _ _ _]
        exact honly')
    exact ⟨_, hframe.cons hlt hnew
      (.inr (.inr fun i hi => honly' i (Nat.lt_succ_of_le hi))),
      ((Adds.refl st).addNode _ _).trans hadds⟩

theorem sound_initial : Sound initial where
  parent_lt h := by cases h
  replay := rfl
  fills _ := rfl
  fits _ hformed := absurd rfl hformed

/-- The state in which the declarations of a module are lowered: the prelude is bound in scope zero,
and scope one is that of the module. -/
def prepared (operators : Bool) : LowerState :=
  addScope (bindAll 0 (preludeNames operators) (addScope initial .preludeScope none)) .moduleScope
    (some 0)

/-- Around the scope of a module the prelude is visible, and nothing else. -/
theorem placed_prelude (operators : Bool) :
    ∃ bound frame, prepared operators = addScope bound .moduleScope (some 0) ∧
      Binds 0 (preludeEntries operators) (addScope initial .preludeScope none) bound frame ∧
      Adds initial bound ((preludeEntries operators).map some) ∧
      Placed bound 0 [frame] [preludeRegion operators] := by
  have sound : Sound (addScope initial .preludeScope none) := sound_initial.addScope _ nofun
  have hfirst : 0 < (addScope initial .preludeScope none).scopes.scopes.size := by decide
  obtain ⟨frame, h, hadds⟩ := binds_bindAll (preludeNames operators) sound hfirst
    (preludeNames_nodup operators) fun _ hlt => absurd hlt (Nat.not_lt_zero _)
  have hchain := ScopeTree.chain_of_root (h.keeps.parent hfirst)
  refine ⟨_, frame, rfl, h, hadds,
    ⟨h.sound, ?_, Nat.lt_of_lt_of_le hfirst h.keeps.scopes_le, ?_⟩, ?_,
    List.forall_mem_singleton.mpr (tells_preludeRegion operators)⟩
  · rw [Sees, hchain, List.map_singleton, h.bindings]
    rfl
  · intro node hnode
    obtain ⟨binding, hbinding, rfl⟩ : ∃ b ∈ frame, b.2 = node := by
      simpa [Names.nodes] using hnode
    exact h.leads binding hbinding
  · rw [ScopeTree.snapshot, hchain, List.map_singleton, List.map_singleton,
      h.keeps.scopeKind hfirst, ScopeTree.localNames, h.bindings]
    exact congrArg (fun names => [Frame.mk .preludeScope names]) h.keys

theorem prelude_forall₂ (h : frame.map (fun binding => (binding.1, m.kind binding.2)) =
      entries.map fun entry => (entry.2, .intrinsic entry.1)) :
    List.Forall₂ (fun entry binding => binding.1 = entry.2 ∧ m.kind binding.2 = .intrinsic entry.1)
      entries frame := by
  induction entries generalizing frame with
  | nil =>
    rw [List.map_nil, List.map_eq_nil_iff] at h
    subst h
    exact .nil
  | cons entry rest ih =>
    cases frame with
    | nil => cases h
    | cons binding more =>
      rw [List.map_cons, List.map_cons, List.cons.injEq, Prod.mk.injEq] at h
      exact .cons h.1 (ih h.2)

/-! ## Declarations -/

/-- Lowers the declarations of a module. -/
def block (options : LowerOptions) (decls : List Decl) : LowerM Unit := do
  fillBlock options 1 decls (← reserveBlock 1 decls)

/-- The module that is made from the state after its declarations. -/
def moduleOf (options : LowerOptions) (tree : Surface.Module) (st : LowerState) : Module :=
  ⟨(tree.name.map (·.name)).getD "Main", st.graph, st.scopes, 0, 1, options.entry⟩

/-- The nodes that are added for a module: the prelude, the names of its declarations and what their
bodies need. -/
def moduleNodes (operators : Bool) (tree : Surface.Module) : List Addition :=
  (preludeEntries operators).map some ++ (blockNodes tree.decls ++ bodyNodes tree.decls)

/-- What the declarations of a module leave behind. -/
structure Declares (options : LowerOptions) (tree : Surface.Module) (st : LowerState) : Prop where
  sound : Sound st
  built : BuiltModule (moduleOf options tree st) options.preludeOperators tree
  reserves : ∀ id ∈ (moduleOf options tree st).definitions.map (·.2), st.history.Reserves id
  adds : Adds initial st (moduleNodes options.preludeOperators tree)

theorem checks_block (options : LowerOptions) (hformed : FormedDecls tree.decls) :
    Checks options (moduleSites options.preludeOperators tree) (block options tree.decls)
      (prepared options.preludeOperators) fun _ => Declares options tree := by
  obtain ⟨bound, frame, hprepared, hframe, hadds, hprelude⟩ :=
    placed_prelude options.preludeOperators
  have hone : bound.scopes.scopes.size = 1 := hframe.scopes_eq
  unfold block moduleSites
  rw [hprepared, ← hone]
  refine (checks_reserveBlock_inner hprelude.ready tree.decls _).bind
    fun slots reserved hreserved => ?_
  obtain ⟨definitions, hbinds, hslots, hadds'⟩ := hreserved
  have hinner : Placed reserved bound.scopes.scopes.size [definitions, frame]
      [moduleRegion options.preludeOperators tree, preludeRegion options.preludeOperators] :=
    hprelude.inner hbinds (by rw [hbinds.keys, map_fst_blockEntries]; rfl)
      (tells_blockRegion _ _ _ _)
  refine (checks_fillBlock options hinner hbinds.slots _ _ _ _ tree.decls hformed hslots).imp
    fun _ st hfills => ?_
  have hagrees : ∀ first low, Agrees (moduleOf options tree st) first low st :=
    fun _ _ => ⟨fun _ _ => rfl, fun _ _ => rfl, fun _ _ => rfl, fun _ _ => rfl⟩
  -- the prelude was bound before the definitions, and has not been touched since
  have hlater : Keeps (definitions.map (·.2)) [bound.scopes.scopes.size] bound st :=
    (hbinds.keeps_inner.weaken nofun fun _ h _ => h).trans
      (hfills.keeps.weaken (fun _ h _ => h) nofun)
  have hroot : st.scopes.bindings 0 = frame := by
    refine (hlater.bindings hprelude.ready.scope_lt ?_).trans hframe.bindings
    rw [List.mem_singleton]
    exact Nat.ne_of_lt hprelude.ready.scope_lt
  have htop : st.scopes.bindings 1 = definitions :=
    hone ▸ (hfills.keeps.bindings hbinds.lt_inner nofun).trans hbinds.bindings_inner
  have hkinds : frame.map (fun binding => (binding.1, st.graph.kind binding.2)) =
      frame.map fun binding => (binding.1, bound.graph.kind binding.2) := by
    apply List.map_congr_left
    intro binding hbinding
    rw [hlater.kind (hframe.node_bounds hbinding).2 fun hmem => ?_]
    obtain ⟨other, hother, heq⟩ := List.mem_map.mp hmem
    have hle : bound.graph.size ≤ other.2 := (hbinds.node_bounds hother).1
    exact Nat.not_lt.mpr (heq ▸ hle) (hframe.node_bounds hbinding).2
  have hnodes : frame.map (·.2) = List.range bound.graph.size :=
    hframe.nodes.trans (List.Ico.zero_bot _)
  have hsize : bound.graph.size = (preludeNames options.preludeOperators).length := by
    have hlength := congrArg List.length hnodes
    have hentries := congrArg List.length hframe.entries
    simp only [preludeEntries, List.length_map, List.length_range] at hlength hentries
    omega
  refine ⟨hfills.sound, ⟨rfl, rfl, ?_, ?_, ?_, ?_, ?_, reserved.graph.size, ?_, ?_, ?_⟩, ?_,
    hadds.trans (hadds'.trans hfills.adds)⟩
  · exact (hlater.scopeKind hprelude.ready.scope_lt).trans (hframe.keeps.scopeKind (by decide))
  · exact (hlater.parent hprelude.ready.scope_lt).trans (hframe.keeps.parent (by decide))
  · exact hone ▸ hbinds.inner hfills.keeps (hagrees _ _)
  · show LoweredPrelude _ _ (st.scopes.bindings 0)
    rw [hroot]
    exact prelude_forall₂ (hkinds.trans hframe.entries)
  · show (st.scopes.bindings 0).map (·.2) = _
    rw [hroot, ← hsize]
    exact hnodes
  · show (st.scopes.bindings 1).map (·.2) = _
    rw [htop, ← hsize]
    exact hbinds.nodes
  · rw [← hsize]
    exact hbinds.keeps_inner.size_le
  · have hblock := hfills.holds _ (hagrees _ _) fun _ _ => rfl
    rw [hbinds.size_inner, hone] at hblock
    show BuiltBlock _ _ _ _ _ 1 [st.scopes.bindings 1, st.scopes.bindings 0] tree.decls
      (st.scopes.bindings 1)
    rwa [htop, hroot]
  · intro id hid
    have hmem : id ∈ (st.scopes.bindings 1).map (·.2) := hid
    rw [htop] at hmem
    obtain ⟨binding, hbinding, rfl⟩ := List.mem_map.mp hmem
    exact History.getElem?_of_isPrefix hfills.keeps.added (hbinds.sound.reserves
      (hbinds.node_bounds hbinding).2 (hbinds.slots.reserved binding hbinding))

/-! ## Modules -/

/-- Checks the module that was made and reports on it. -/
def finish (options : LowerOptions) (tree : Surface.Module) : LowerM Module := do
  let m := moduleOf options tree (← get)
  match m.unfilled? with
  | some id => throw (.unfilledNode (m.label id))
  | none =>
    report (.lowered m.name m.definitions.length m.graph.size)
    m.definitions.forM fun (name, id) => report (.defined m name id)
    return m

theorem program_eq (options : LowerOptions) (tree : Surface.Module) :
    program options tree initial =
      (block options tree.decls >>= fun _ => finish options tree)
        (prepared options.preludeOperators) := by
  have hroot : openScope .preludeScope none initial =
      (.ok 0, addScope initial .preludeScope none) := rfl
  have htop : openScope .moduleScope (some 0)
      (bindAll 0 (preludeNames options.preludeOperators) (addScope initial .preludeScope none)) =
      (.ok 1, prepared options.preludeOperators) := by
    cases options.preludeOperators <;> rfl
  unfold program
  rw [run_bind_of_ok hroot, run_bind_of_ok (bindIntrinsics_eq _ _ _), run_bind_of_ok htop, block,
    bind_assoc]
  rfl

theorem reports_ok (m : Module) (entries : Bindings) (st : LowerState) :
    ∃ st', (entries.forM fun entry => report (.defined m entry.1 entry.2) : LowerM Unit) st =
      (.ok (), st') ∧ st'.changes = st.changes := by
  induction entries generalizing st with
  | nil => exact ⟨st, rfl, rfl⟩
  | cons entry rest ih => exact ih _

/-- The check finds every node filled, and changes nothing. -/
theorem finish_ok (h : Declares options tree st) :
    ∃ st', finish options tree st = (.ok (moduleOf options tree st), st') ∧
      st'.changes = st.changes := by
  have hnone : (moduleOf options tree st).unfilled? = none := by
    rw [Module.unfilled?, List.find?_eq_none]
    intro id hlive
    simp only [Module.liveNodes, reachable, List.mem_filter, List.mem_range] at hlive
    simpa using h.built.ledger.formed id (Nat.zero_le _) hlive.1
  have hget : (get : LowerM LowerState) st = (.ok st, st) := rfl
  have hreport : ∀ event, report event st = (.ok (), reported st event) := fun _ => rfl
  obtain ⟨st', hreports, hchanges⟩ := reports_ok (moduleOf options tree st)
    (moduleOf options tree st).definitions (reported st _)
  refine ⟨st', ?_, hchanges⟩
  unfold finish
  rw [run_bind_of_ok hget]
  simp only [hnone]
  rw [run_bind_of_ok (hreport _), run_bind_of_ok hreports]
  rfl

end Lowering

/-- An error of lowering is about a site of the module. If there is none, all sites keep their
rules, and the module is what its declarations leave behind. -/
theorem lowerModule_checks (options : LowerOptions) (hformed : FormedDecls tree.decls) :
    match (lowerModule options tree).1 with
    | .ok m => (∀ site ∈ moduleSites options.preludeOperators tree, site.Lawful options) ∧
        ∃ st, Lowering.Declares options tree st ∧ m = Lowering.moduleOf options tree st ∧
          lowerHistory options tree = st.history
    | .error e => ∃ site ∈ moduleSites options.preludeOperators tree, site.Blames options e := by
  have hlower : (lowerModule options tree).1 = (Lowering.program options tree Lowering.initial).1 :=
    rfl
  have hhistory : lowerHistory options tree =
      (Lowering.program options tree Lowering.initial).2.history := rfl
  have hchecks := Lowering.checks_block options hformed
  unfold Lowering.Checks at hchecks
  rw [hlower, hhistory, Lowering.program_eq]
  rcases hblock : Lowering.block options tree.decls (Lowering.prepared options.preludeOperators)
    with ⟨e | _, st⟩ <;> rw [hblock] at hchecks
  · rw [Lowering.run_bind_of_error hblock]
    exact hchecks
  · obtain ⟨st', hfinish, hchanges⟩ := Lowering.finish_ok hchecks.2
    rw [Lowering.run_bind_of_ok hblock, hfinish]
    exact ⟨hchecks.1, st, hchecks.2, rfl, congrArg Array.toList hchanges⟩

theorem declares_of_lowerModule (hformed : FormedDecls tree.decls)
    (h : (lowerModule options tree).1 = .ok m) :
    ∃ st, Lowering.Declares options tree st ∧ m = Lowering.moduleOf options tree st ∧
      lowerHistory options tree = st.history := by
  have hchecks := lowerModule_checks options hformed
  rw [h] at hchecks
  exact hchecks.2

/-- What is known at the end of lowering gives the graph its shape. -/
theorem Lowering.Declares.shaped {st : LowerState} (h : Lowering.Declares options tree st) :
    (Lowering.moduleOf options tree st).Shaped := by
  have hledger := h.built.ledger
  constructor
  · intro id target hkind
    have hfits : st.history.Fits (.indirection target) := by
      have hfits := h.sound.fits id
      rw [show st.graph.kind id = _ from hkind] at hfits
      exact hfits nofun
    exact h.sound.length_added ▸ (hfits.target rfl).lt
  · intro id child hchild
    exact (hledger.made_of_parts (NodeKind.node_mem_parts.mpr hchild)).2
  · intro id child other hchild
    exact hledger.below (Ledger.parts_subset (NodeKind.node_mem_parts.mpr hchild))
  · intro id scope body hkind
    have hparams := (hledger.made_of_parts (NodeKind.params_mem_parts.mpr ⟨body, hkind⟩)).2.2
    rw [Module.params, hkind]
    exact fun hnil => h.built.drawn.bindings_ne_nil hparams (List.map_eq_nil_iff.mp hnil)

/-- The module that a successful lowering yields has the shape of a lowered graph, is built from the
syntax tree, and is run from the definition that was asked for. -/
theorem lowerModule_built (hformed : FormedDecls tree.decls)
    (h : (lowerModule options tree).1 = .ok m) :
    m.Shaped ∧ BuiltModule m options.preludeOperators tree ∧ m.entry = options.entry := by
  obtain ⟨st, hdeclares, rfl, _⟩ := declares_of_lowerModule hformed h
  exact ⟨hdeclares.shaped, hdeclares.built, rfl⟩

/-- The module that a successful lowering yields is related to the syntax tree. -/
theorem lowerModule_ok (hformed : FormedDecls tree.decls)
    (h : (lowerModule options tree).1 = .ok m) :
    m.Shaped ∧ LoweredModule m options.preludeOperators tree ∧ m.entry = options.entry := by
  obtain ⟨hshaped, hbuilt, hentry⟩ := lowerModule_built hformed h
  exact ⟨hshaped, hbuilt.lowered, hentry⟩

/-- Each top-level definition has a node of its own. -/
theorem lowerModule_nodup (hformed : FormedDecls tree.decls)
    (h : (lowerModule options tree).1 = .ok m) : (m.definitions.map (·.2)).Nodup := by
  obtain ⟨slots, hslots, _⟩ := (lowerModule_built hformed h).2.1.definitions
  exact hslots ▸ List.Ico.nodup _ _

end Lamina.Core
