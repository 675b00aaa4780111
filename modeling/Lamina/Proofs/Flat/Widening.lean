import Mathlib.Data.List.Sort
import Lamina.Proofs.Core.Widening
import Lamina.Proofs.Flat.Mirror

/-!
# Conversion and the operators of the prelude

A module without and a module with operators in the prelude are twins whose nodes and definitions
stand in the same order. So their lambdas are found in the same order (`liftedOf_forall₂`), a function
captures the same parameters in the same order (`captures_widened`), and constructors are met in the
same order (`Mirrored.table_eq`). The values of the one run are then those of the other
(`Mirrors.eq`), and the runs are the same (`run_widened`).
-/

namespace Lamina.Flat

open Lamina.Core (NodeId NodeKind Module Twins Aligned Widened widen widen_strictMono)
open Lamina.Machine (Value)
open Outline (bound)

namespace Discovers

variable {next next' : NodeId → List NodeId} {seen pending after after' : List NodeId}

theorem unique (h : Discovers next seen pending after) (h' : Discovers next seen pending after') :
    after = after' := by
  induction h with
  | done =>
    cases h'
    rfl
  | skip hseen _ ih =>
    cases h' with
    | skip _ hrest => exact ih hrest
    | visit hnew _ => exact absurd hseen hnew
  | visit hnew _ ih =>
    cases h' with
    | skip hseen _ => exact absurd hseen hnew
    | visit _ hrest => exact ih hrest

/-- A walk remains one when nodes are renamed and nodes are left out, provided that what is left out
leads only to what is left out. -/
theorem filterMap {f} (h : Discovers next' seen pending after)
    (hinj : ∀ {a b c}, f a = some c → f b = some c → a = b)
    (hstep : ∀ id ∈ after, (next' id).filterMap f = (f id).elim [] next) :
    Discovers next (seen.filterMap f) (pending.filterMap f) (after.filterMap f) := by
  induction h with
  | done => exact .done
  | @skip seen rest after id hseen _ ih =>
    cases hid : f id with
    | none =>
      rw [List.filterMap_cons_none hid]
      exact ih hstep
    | some node =>
      rw [List.filterMap_cons_some hid]
      exact .skip (List.mem_filterMap.mpr ⟨id, hseen, hid⟩) (ih hstep)
  | @visit seen rest after id hnew hrest ih =>
    have hnext := hstep id (hrest.subset (by simp))
    have hmore := ih hstep
    rw [List.filterMap_append, List.filterMap_append, hnext] at hmore
    cases hid : f id with
    | none =>
      rw [List.filterMap_cons_none hid]
      simpa [hid] using hmore
    | some node =>
      rw [List.filterMap_cons_some hid]
      refine .visit (fun hmem => ?_) (by simpa [hid] using hmore)
      obtain ⟨other, hother, heq⟩ := List.mem_filterMap.mp hmem
      exact hnew (hinj heq hid ▸ hother)

end Discovers

/-! ## Operators and names of them -/

/-- An operator, or a reference to one. -/
inductive Idle (m : Module) : NodeId → Prop
  | operator {id op} (hkind : m.kind id = .intrinsic op) : Idle m id
  | reference {id target} (hkind : m.kind id = .indirection target) (htarget : Idle m target) :
      Idle m id

open Classical in
/-- The node that stands for a node, unless that is idle. -/
noncomputable def counterpart (R : NodeId → NodeId → Prop) (m : Module) (id' : NodeId) :
    Option NodeId :=
  if h : ∃ id, R id id' ∧ ¬ Idle m id then some h.choose else none

section

variable {C : String → Prop} {R : NodeId → NodeId → Prop} {m m' : Module} {id id' : NodeId}
  {ids ids' : List NodeId}

theorem Idle.followed (h : Idle m id) {child : NodeId} (hchild : child ∈ followed m id) :
    Idle m child := by
  cases h with
  | operator hkind => simp [Flat.followed, hkind, NodeKind.children] at hchild
  | reference hkind htarget =>
    rw [followed_of_indirection hkind] at hchild
    split at hchild
    · cases hchild
    · rwa [List.mem_singleton.mp hchild]

theorem Idle.not_lifted (h : Idle m id) : isLifted m id = false := by
  cases h with
  | operator hkind => simp [isLifted, hkind, isLambda]
  | reference hkind _ => simp [isLifted, hkind, isLambda]

theorem Idle.twins (h : Twins C R m m') (hidle : Idle m id) (hid : R id id') : Idle m' id' := by
  induction hidle generalizing id' with
  | operator hkind =>
    obtain ⟨_, hkind', hmatching⟩ := kind_twins h hid hkind
    cases hmatching with
    | intrinsic => exact .operator hkind'
    | operator hop => exact .reference hkind' (.operator hop)
  | reference hkind _ ih =>
    rcases indirection_twins h hid hkind with ⟨target', hkind', hrel⟩ | ⟨op, _, hkind'⟩
    · exact .reference hkind' (ih hrel)
    · exact .operator hkind'

/-- Nodes with more to them than an operator lead to nodes that stand for one another. -/
theorem followed_twins (h : Twins C R m m') (hid : R id id') (hidle : ¬ Idle m id) :
    List.Forall₂ R (followed m id) (followed m' id') := by
  have hmatching := h.kind hid
  unfold followed
  generalize hkind : m.kind id = kind at hmatching
  generalize m'.kind id' = kind' at hmatching
  cases hmatching with
  | operator hop => exact absurd (.operator hkind) hidle
  | referred hop => exact absurd (.reference hkind (.operator hop)) hidle
  | application hfunc harg => exact .cons hfunc (.cons harg .nil)
  | lambda _ hbody => exact .cons hbody .nil
  | conditional htest htrue hfalse => exact .cons htest (.cons htrue (.cons hfalse .nil))
  | indirection htarget =>
    simp only [isDefinition_twins h htarget]
    split
    · exact .nil
    · exact .cons htarget .nil
  | _ => exact .nil

theorem counterpart_eq_some_iff (hunique : Relator.LeftUnique R) :
    counterpart R m id' = some id ↔ R id id' ∧ ¬ Idle m id := by
  unfold counterpart
  split
  · rename_i h
    constructor
    · intro heq
      cases heq
      exact h.choose_spec
    · exact fun hid => congrArg some (hunique h.choose_spec.1 hid.1)
  · rename_i h
    exact iff_of_false nofun fun hid => h ⟨id, hid⟩

theorem idle_of_counterpart_eq_none (hnone : counterpart R m id' = none) (hid : R id id') :
    Idle m id := by
  by_contra hidle
  unfold counterpart at hnone
  rw [dif_pos ⟨id, hid, hidle⟩] at hnone
  cases hnone

theorem counterpart_twins (hunique : Relator.LeftUnique R) (hid : R id id') :
    counterpart R m id' = counterpart Eq m id := by
  refine Option.ext fun node => ?_
  rw [counterpart_eq_some_iff hunique, counterpart_eq_some_iff (fun _ _ _ h h' => h.trans h'.symm)]
  refine and_congr_left' ⟨fun hnode => hunique hnode hid, ?_⟩
  rintro rfl
  exact hid

theorem filterMap_counterpart (hunique : Relator.LeftUnique R) (h : List.Forall₂ R ids ids') :
    ids'.filterMap (counterpart R m) = ids.filterMap (counterpart Eq m) := by
  induction h with
  | nil => rfl
  | cons hid _ ih => simp only [List.filterMap_cons, counterpart_twins hunique hid, ih]

/-! ## The order of the lambdas -/

/-- The walk of a twin, with the nodes that stand for its nodes. -/
theorem Discovers.counterparts (hunique : Relator.BiUnique R) {after}
    (h : Discovers (followed m') [] ids' after) (hfollowed : ∀ {id id'}, R id id' → ¬ Idle m id →
      List.Forall₂ R (followed m id) (followed m' id'))
    (hback : ∀ {id id'}, Idle m' id' → R id id' → Idle m id)
    (hidle : ∀ id' ∈ after, counterpart R m id' = none → Idle m' id') :
    Discovers (fun id => (followed m id).filterMap (counterpart Eq m)) []
      (ids'.filterMap (counterpart R m)) (after.filterMap (counterpart R m)) := by
  refine h.filterMap ?_ fun id' hid' => ?_
  · intro a b c ha hb
    exact hunique.2 ((counterpart_eq_some_iff hunique.1).mp ha).1
      ((counterpart_eq_some_iff hunique.1).mp hb).1
  · cases hnode : counterpart R m id' with
    | some id =>
      obtain ⟨hid, hlive⟩ := (counterpart_eq_some_iff hunique.1).mp hnode
      exact filterMap_counterpart hunique.1 (hfollowed hid hlive)
    | none =>
      refine List.filterMap_eq_nil_iff.mpr fun child hchild => ?_
      cases hother : counterpart R m child with
      | none => rfl
      | some other =>
        obtain ⟨hrel, hlive⟩ := (counterpart_eq_some_iff hunique.1).mp hother
        exact absurd (hback ((hidle id' hid' hnode).followed hchild) hrel) hlive

/-- Lambdas are not among what is left out. -/
theorem forall₂_filter_lifted (hunique : Relator.LeftUnique R)
    (hlifted : ∀ {id id'}, R id id' → isLifted m id = isLifted m' id')
    (hidle : ∀ id' ∈ ids', counterpart R m id' = none → Idle m' id') :
    List.Forall₂ R ((ids'.filterMap (counterpart R m)).filter (isLifted m))
      (ids'.filter (isLifted m')) := by
  induction ids' with
  | nil => exact .nil
  | cons id' rest ih =>
    obtain ⟨hfirst, hrest⟩ := List.forall_mem_cons.mp hidle
    cases hnode : counterpart R m id' with
    | none =>
      rw [List.filterMap_cons_none hnode, List.filter_cons_of_neg (by simp [(hfirst hnode).not_lifted])]
      exact ih hrest
    | some id =>
      have hid := ((counterpart_eq_some_iff hunique).mp hnode).1
      rw [List.filterMap_cons_some hnode, List.filter_cons, List.filter_cons, hlifted hid]
      split
      · exact .cons hid (ih hrest)
      · exact ih hrest

/-- If definitions that stand for one another are in the same order, lambdas that stand for one
another are found in the same order. -/
theorem liftedOf_forall₂ (h : Twins C R m m') (regular : Regular m) (regular' : Regular m')
    (hdefinitions : List.Forall₂ R (m.definitions.map (·.2)) (m'.definitions.map (·.2))) :
    List.Forall₂ R (liftedOf m (globalsOf m)) (liftedOf m' (globalsOf m')) := by
  obtain ⟨_, _, wellFormed⟩ := regular.wellFormed
  obtain ⟨_, _, wellFormed'⟩ := regular'.wellFormed
  obtain ⟨order, hwalk, hlifted⟩ := liftedOf_discovers wellFormed regular.shaped regular.nodup
  obtain ⟨order', hwalk', hlifted'⟩ := liftedOf_discovers wellFormed' regular'.shaped regular'.nodup
  have heq : Relator.BiUnique (Eq : NodeId → NodeId → Prop) :=
    ⟨fun _ _ _ h h' => h.trans h'.symm, fun _ _ _ h h' => h.symm.trans h'⟩
  -- each walk without what is idle is the same walk
  have hidle : ∀ id ∈ order, counterpart Eq m id = none → Idle m id :=
    fun id _ hnone => idle_of_counterpart_eq_none hnone rfl
  have hidle' : ∀ id' ∈ order', counterpart R m id' = none → Idle m' id' := by
    intro id' hid' hnone
    rcases reached_twins h.symm (hwalk'.mem_iff.mp hid') with ⟨id, _, hid⟩ | ⟨op, hop⟩
    · exact (idle_of_counterpart_eq_none hnone hid).twins h hid
    · exact .operator hop
  have hthin := hwalk.counterparts heq (fun hid _ => hid ▸ List.forall₂_refl _)
    (fun hid heq => heq ▸ hid) hidle
  have hthin' := hwalk'.counterparts h.unique (followed_twins h) (Idle.twins h.symm) hidle'
  rw [filterMap_counterpart h.unique.1 hdefinitions] at hthin'
  have hsame : List.Forall₂ Eq _ (order.filter (isLifted m)) :=
    forall₂_filter_lifted heq.1 (fun hid => hid ▸ rfl) hidle
  rw [List.forall₂_eq_eq_eq] at hsame
  rw [hlifted, hlifted', ← hsame, hthin.unique hthin']
  exact forall₂_filter_lifted h.unique.1 (isLifted_twins h) hidle'

theorem nodes_forall₂ (h : Twins C R m m') (regular : Regular m) (regular' : Regular m')
    (hdefinitions : Aligned R m.definitions m'.definitions) :
    List.Forall₂ R (planOf m false).1.nodes (planOf m' false).1.nodes := by
  have hglobals : List.Forall₂ R ((globalsOf m).map (·.1)) ((globalsOf m').map (·.1)) := by
    rw [globalsOf_eq, globalsOf_eq, List.map_map, List.map_map, List.forall₂_map_left_iff,
      List.forall₂_map_right_iff]
    generalize m.definitions = bindings at hdefinitions
    generalize m'.definitions = bindings' at hdefinitions
    induction hdefinitions with
    | nil => exact .nil
    | cons hbinding _ ih =>
      rw [List.filter_cons, List.filter_cons, isLambda_twins h hbinding.2]
      split
      · exact .cons hbinding.2 ih
      · exact ih
  refine List.rel_append hglobals (liftedOf_forall₂ h regular regular' ?_)
  rw [List.forall₂_map_left_iff, List.forall₂_map_right_iff]
  exact hdefinitions.imp fun _ _ hbinding => hbinding.2

end

/-! ## Plans -/

/-- What nodes that stand for one another have in common, in plans that keep their order. -/
structure InOrder (R : NodeId → NodeId → Prop) (p p' : Plan) : Prop where
  nodes : List.Forall₂ R p.nodes p'.nodes
  nodup : ∀ id, (p.captures.of id).Nodup
  nodup' : ∀ id', (p'.captures.of id').Nodup
  captures : ∀ {id id'}, R id id' → id ∈ p.nodes → id' ∈ p'.nodes →
    List.Forall₂ R (p.captures.of id) (p'.captures.of id')

section

variable {C : String → Prop} {m m' : Module} {limit : Nat} {id id' : NodeId}

/-- A function captures the same parameters in the same order. -/
theorem captures_widened (h : Twins C (Widened limit) m m') (regular : Regular m)
    (regular' : Regular m') (hid : Widened limit id id') (hnode : id ∈ (planOf m false).1.nodes)
    (hnode' : id' ∈ (planOf m' false).1.nodes) :
    List.Forall₂ (Widened limit) ((planOf m false).1.captures.of id)
      ((planOf m' false).1.captures.of id') := by
  have hcaptures := exists_capture_twins h regular regular' hid hnode hnode'
  have heq : (planOf m' false).1.captures.of id' = ((planOf m false).1.captures.of id).map widen := by
    refine (captures_ascending regular'.shaped _).eq_of_mem_iff
      ((captures_ascending regular.shaped id).map widen fun _ _ hlt => widen_strictMono hlt)
      fun x' => ⟨fun hx' => ?_, fun hx' => ?_⟩
    · obtain ⟨x, hx, hrel⟩ := exists_capture_twins h.symm regular' regular hid hnode' hnode x' hx'
      exact List.mem_map.mpr ⟨x, hx, hrel.2.symm⟩
    · obtain ⟨x, hx, rfl⟩ := List.mem_map.mp hx'
      obtain ⟨_, hmem, hrel⟩ := hcaptures x hx
      exact hrel.2 ▸ hmem
  rw [heq, List.forall₂_map_right_iff, List.forall₂_same]
  intro x hx
  obtain ⟨_, _, hrel⟩ := hcaptures x hx
  exact ⟨hrel.1, rfl⟩

theorem inOrder_of_twins (h : Twins C (Widened limit) m m') (regular : Regular m)
    (regular' : Regular m') (hdefinitions : Aligned (Widened limit) m.definitions m'.definitions) :
    InOrder (Widened limit) (planOf m false).1 (planOf m' false).1 where
  nodes := nodes_forall₂ h regular regular' hdefinitions
  nodup id := (captures_ascending regular.shaped id).nodup
  nodup' id' := (captures_ascending regular'.shaped id').nodup
  captures := captures_widened h regular regular'

end

/-! ## Values -/

theorem bound_getElem {scope args} (hnodup : scope.Nodup) (hlen : args.length = scope.length)
    {i : Nat} (hi : i < scope.length) (hi' : i < args.length) :
    bound scope args scope[i] = args[i] := by
  have hkeys : ((scope.zip args).reverse.map (·.1)).Nodup := by
    rw [List.map_reverse, List.map_fst_zip (Nat.le_of_eq hlen.symm)]
    exact List.nodup_reverse.mpr hnodup
  have hmem : (scope[i], args[i]) ∈ (scope.zip args).reverse := by
    have hzip : i < (scope.zip args).length := by simpa using ⟨hi, hi'⟩
    rw [List.mem_reverse, ← List.getElem_zip (h := hzip)]
    exact List.getElem_mem hzip
  unfold bound
  rw [lookup_of_mem hkeys hmem]
  rfl

section

variable {C : String → Prop} {R : NodeId → NodeId → Prop} {p p' : Plan}
  {entry entry' id id' : NodeId} {o o' : Outline}

/-- Functions that stand for one another have the same number. -/
theorem InOrder.function_eq (h : InOrder R p p') (hunique : Relator.BiUnique R) (hid : R id id') :
    p.function? id = p'.function? id' := by
  have hindex : ∀ {ids ids'}, List.Forall₂ R ids ids' →
      ids.idxOf? id = ids'.idxOf? id' := by
    intro ids ids' h
    induction h with
    | nil => rfl
    | @cons node node' _ _ hnode _ ih =>
      have hsame : (node == id) = (node' == id') := by
        rw [Bool.eq_iff_iff, beq_iff_eq, beq_iff_eq]
        exact Relator.rel_eq hunique hnode hid
      rw [List.idxOf?_cons, List.idxOf?_cons, ih, hsame]
  show Plan.lastIndex? p.nodes id = Plan.lastIndex? p'.nodes id'
  unfold Plan.lastIndex?
  rw [hindex (List.rel_reverse h.nodes), h.nodes.length_eq]

namespace Mirrored

/-- In plans that keep the order of nodes a value is its own mirror. -/
theorem eq_of_mirrors (h : Mirrored C R p p' entry entry' o o') (horder : InOrder R p p')
    {v w : Value} (hmirrors : Mirrors R p p' v w) : v = w := by
  induction hsize : sizeOf v using Nat.strongRecOn generalizing v w with
  | ind size ih =>
    subst hsize
    have hlist : ∀ {args args'}, List.Forall₂ (Mirrors R p p') args args' →
        (∀ arg ∈ args, sizeOf arg < sizeOf v) → args = args' := by
      intro args args' hargs hlt
      refine List.ext_getElem hargs.length_eq fun i hi hi' => ?_
      exact ih _ (hlt _ (List.getElem_mem hi)) (hargs.get hi hi') rfl
    cases hmirrors with
    | int | str | con => rfl
    | @prim op args args' hargs =>
      rw [hlist hargs fun arg harg => by
        have := List.sizeOf_lt_of_mem harg
        simp only [Value.closure.sizeOf_spec]
        omega]
    | @closure id id' function function' captured captured' args args' hclosures hcaptured hargs =>
      have hsmall : ∀ arg ∈ captured ++ args,
          sizeOf arg < sizeOf (Value.closure (.function function) (p.arity id) (captured ++ args)) := by
        intro arg harg
        have := List.sizeOf_lt_of_mem harg
        simp only [Value.closure.sizeOf_spec]
        omega
      have hfunction := horder.function_eq h.module.unique hclosures.twins
      rw [hclosures.function, hclosures.function', Option.some.injEq] at hfunction
      have hscope := horder.captures hclosures.twins
        (List.mem_of_getElem? (getElem_of_lastIndex hclosures.function))
        (List.mem_of_getElem? (getElem_of_lastIndex hclosures.function'))
      -- place by place, what is captured is what the parameter there is bound to
      have hsame : captured = captured' := by
        refine List.ext_getElem (by rw [hclosures.length, hclosures.length', hscope.length_eq]) ?_
        intro i hi hi'
        have hi₂ : i < (p.captures.of id).length := hclosures.length ▸ hi
        have hi₂' : i < (p'.captures.of id').length := hclosures.length' ▸ hi'
        have hmirrors := hcaptured _ (List.getElem_mem hi₂) _ (List.getElem_mem hi₂')
          (hscope.get hi₂ hi₂')
        rw [bound_getElem (horder.nodup id) hclosures.length hi₂ hi,
          bound_getElem (horder.nodup' id') hclosures.length' hi₂' hi'] at hmirrors
        exact ih _ (hsmall _ (List.mem_append_left _ (List.getElem_mem hi))) hmirrors rfl
      rw [hsame, hfunction, h.arity_eq hclosures.twins hclosures.function hclosures.function',
        hlist hargs fun arg harg => hsmall arg (List.mem_append_right _ harg)]

/-- Constructors are met in the same order. -/
theorem table_eq (h : Mirrored C R p p' entry entry' o o') (horder : InOrder R p p') :
    o.table = o'.table := by
  have hfold : ∀ {ids ids' rs rs'}, List.Forall₂ R ids ids' →
      List.Forall₂ (RoutineOf p) ids rs → List.Forall₂ (RoutineOf p') ids' rs' → ∀ names,
      rs.foldl (fun names r => r.body.table names) names =
        rs'.foldl (fun names r => r.body.table names) names := by
    intro ids ids' rs rs' hids
    induction hids generalizing rs rs' with
    | nil =>
      rintro ⟨⟩ ⟨⟩ names
      rfl
    | cons hid _ ih =>
      rintro (_ | ⟨hof, hrest⟩) (_ | ⟨hof', hrest'⟩) names
      obtain ⟨_, _, hkind, hbody⟩ := hof.body
      obtain ⟨_, _, hkind', hbody'⟩ := hof'.body
      obtain ⟨_, _, hlambda, hrel⟩ := lambda_twins h.module hid hkind
      cases hkind'.symm.trans hlambda
      rw [List.foldl_cons, List.foldl_cons, (h.expands_mirror hrel hbody' hbody).table, ih hrest
        hrest']
  obtain ⟨value', hvalue', htable, _⟩ := h.covers'.main.expands h.settled' h.covers'
  unfold Outline.table
  rw [hfold horder.nodes h.covers.routines h.covers'.routines, htable,
    (h.refers_mirror h.entry hvalue' h.covers.main).table]

end Mirrored

end

/-! ## Runs -/

/-- Twins whose nodes and definitions stand in the same order run in the same way. -/
theorem run_widened {limit m m'} (h : Twins (fun _ => True) (Widened limit) m m')
    (hdefinitions : Aligned (Widened limit) m.definitions m'.definitions) (regular : Regular m)
    (regular' : Regular m') {o o'} (ho : outlineOf m = .ok o) (ho' : outlineOf m' = .ok o') :
    o.table = o'.table ∧ ∀ number calls, o.run number calls = o'.run number calls := by
  obtain ⟨entry, entry', hmirrored⟩ := mirrored_of_twins h regular regular' ho ho'
  have horder := inOrder_of_twins h regular regular' hdefinitions
  refine ⟨hmirrored.table_eq horder, fun number calls => ?_⟩
  have heval : o.eval number calls = o'.eval number calls :=
    ((hmirrored.entry_alike (fun _ _ => rfl) calls).mono fun _ _ =>
      hmirrored.eq_of_mirrors horder).eq
  unfold Outline.run
  rw [heval]

end Lamina.Flat
