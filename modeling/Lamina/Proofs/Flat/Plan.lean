import Mathlib.Data.List.Forall2
import Lamina.Proofs.Except
import Lamina.Proofs.Flat.Outline

/-!
# What a plan leads to

Where the routine of a lambda stands in the outline of a plan (`Outline.Covers`), that top-level
functions capture nothing (`planOf_settled`), and that converting a module is assembling the outline
of its plan (`convert_eq`).
-/

namespace Lamina.Flat

open Lamina.Core (NodeId NodeKind Module)

variable {id : NodeId} {p : Plan} {r : Routine} {m : Module} {o : Outline}

/-! ## Where a routine stands -/

theorem getElem_of_lastIndex {nodes id i} (h : Plan.lastIndex? nodes id = some i) :
    nodes[i]? = some id := by
  obtain ⟨j, hj, rfl⟩ := Option.map_eq_some_iff.mp h
  obtain ⟨hlt, heq, _⟩ := List.findIdx?_eq_some_iff_getElem.mp hj
  have hlt' : j < nodes.length := by simpa using hlt
  rw [← List.getElem?_reverse hlt', List.getElem?_eq_getElem hlt]
  simpa using heq

theorem exists_lastIndex {nodes id} (h : id ∈ nodes) : ∃ i, Plan.lastIndex? nodes id = some i := by
  unfold Plan.lastIndex?
  cases hi : nodes.reverse.idxOf? id with
  | none => exact absurd (List.mem_reverse.mpr h) (List.idxOf?_eq_none_iff.mp hi)
  | some j => exact ⟨_, rfl⟩

/-- The nodes of the functions of a plan in order. -/
def Plan.nodes (p : Plan) : List NodeId := p.globals.map (·.1) ++ p.lifted

/-- A routine and the lambda it was made from. -/
structure RoutineOf (p : Plan) (id : NodeId) (r : Routine) : Prop where
  captures : r.captures = p.captures.of id
  params : r.params = p.module.params id
  body : ∃ params body, p.module.kind id = .lambda params body ∧ Expands p r.scope body r.body

theorem RoutineOf.scope_eq (h : RoutineOf p id r) :
    r.scope = p.captures.of id ++ p.module.params id := by
  rw [Routine.scope, h.captures, h.params]

theorem RoutineOf.scope_length (h : RoutineOf p id r) : r.scope.length = p.arity id := by
  rw [h.scope_eq, List.length_append]
  rfl

/-- What is known of an outline from its plan. -/
structure Outline.Covers (p : Plan) (entry : NodeId) (o : Outline) : Prop where
  routines : List.Forall₂ (RoutineOf p) p.nodes o.routines
  globals : o.globals.toList = p.globals.map fun (id, name) => Conversion.globalSlot p id name
  main : Refers p [] entry o.main

theorem forall₂_of_mapM {ε α β : Type} {f : α → Except ε β} {as bs} (h : as.mapM f = .ok bs) :
    List.Forall₂ (fun a b => f a = .ok b) as bs := by
  induction as generalizing bs with
  | nil =>
    cases h
    exact .nil
  | cons a rest ih =>
    rw [List.mapM_cons] at h
    obtain ⟨b, hb, h⟩ := ok_of_bind h
    obtain ⟨more, hmore, h⟩ := ok_of_bind h
    cases h
    exact .cons hb (ih hmore)

theorem Plan.parts_nodes (p : Plan) : p.parts.map (·.1) = p.nodes := by
  unfold parts nodes
  simp [Function.comp_def]

theorem routineOf_routine {part} (h : p.routine part = .ok r) : RoutineOf p part.1 r := by
  unfold Plan.routine at h
  split at h
  · rename_i params body hkind
    obtain ⟨t, ht, rfl⟩ := ok_of_map h
    exact ⟨rfl, rfl, params, body, hkind, expand_expands ht⟩
  · cases h

theorem Plan.outline_covers {entry : NodeId} (h : p.outline entry = .ok o) : o.Covers p entry := by
  unfold Plan.outline at h
  obtain ⟨routines, hroutines, h⟩ := ok_of_bind h
  obtain ⟨main, hmain, h⟩ := ok_of_bind h
  cases h
  refine ⟨?_, rfl, expandReference_refers (fun t ht => expand_expands ht) hmain⟩
  rw [← p.parts_nodes, List.forall₂_map_left_iff]
  exact (forall₂_of_mapM hroutines).imp fun part r hr => routineOf_routine hr

namespace Outline.Covers

variable {p : Plan} {entry : NodeId} {o : Outline}

/-- The routine of a lambda stands where the plan says. -/
theorem routine (h : o.Covers p entry) {i : FunctionId} (hi : p.function? id = some i) :
    ∃ r, o.routines[i]? = some r ∧ RoutineOf p id r := by
  have hnode : p.nodes[i]? = some id := getElem_of_lastIndex hi
  obtain ⟨hlt, heq⟩ := List.getElem?_eq_some_iff.mp hnode
  have hlt' : i < o.routines.length := h.routines.length_eq ▸ hlt
  refine ⟨o.routines[i], List.getElem?_eq_getElem hlt', ?_⟩
  have := h.routines.get hlt hlt'
  rw [List.get_eq_getElem, heq] at this
  exact this

/-- A global slot has the function of its lambda, and the arity of its parameters. -/
theorem slot (h : o.Covers p entry) {id slot} (hslot : p.slot? id = some slot) :
    ∃ g, o.globals[slot]? = some g ∧ p.function? id = some g.function ∧
      g.arity = (p.module.params id).length := by
  have hid := getElem_of_lastIndex hslot
  rw [List.getElem?_map] at hid
  obtain ⟨⟨node, name⟩, hglobal, hnode⟩ := Option.map_eq_some_iff.mp hid
  obtain rfl : node = id := hnode
  refine ⟨Conversion.globalSlot p node name, ?_, ?_, rfl⟩
  · rw [← Array.getElem?_toList, h.globals, List.getElem?_map, hglobal]
    rfl
  · -- the last function of the node is the one in the slot, and there is one
    have hmem : node ∈ p.nodes :=
      List.mem_append_left _ (List.mem_map.mpr ⟨_, List.mem_of_getElem? hglobal, rfl⟩)
    obtain ⟨i, hi⟩ := exists_lastIndex hmem
    have hfunction : p.function? node = some i := hi
    simp [Conversion.globalSlot, hfunction]

/-- Each routine comes from a lambda. -/
theorem node (h : o.Covers p entry) (hr : r ∈ o.routines) : ∃ id, RoutineOf p id r := by
  obtain ⟨i, hi, rfl⟩ := List.mem_iff_getElem.mp hr
  have hi' : i < p.nodes.length := h.routines.length_eq.symm ▸ hi
  exact ⟨_, h.routines.get hi' hi⟩

theorem mentions_scope (h : o.Covers p entry) : o.Scoped := by
  refine ⟨?_, h.main.params_subset⟩
  intro r hr
  obtain ⟨id, hid⟩ := h.node hr
  obtain ⟨_, _, _, hbody⟩ := hid.body
  exact hbody.params_subset

end Outline.Covers

/-! ## Captures -/

/-- The walk adds no top-level function to the lambdas it has found. -/
theorem collect_lifted {globals fuel found} (h : ∀ node ∈ found.lifted, node ∉ globals.map (·.1)) :
    ∀ node ∈ (collect m globals fuel id found).lifted, node ∉ globals.map (·.1) := by
  induction fuel generalizing id found with
  | zero => exact h
  | succ fuel ih =>
    unfold collect
    split
    · rename_i params body hkind
      split
      · exact h
      · rename_i hnew
        apply ih
        intro node hnode
        rcases List.mem_append.mp hnode with hold | hlast
        · exact h node hold
        · -- a lambda is only added if it is no top-level function
          rw [List.mem_singleton.mp hlast]
          intro hglobal
          apply hnew
          obtain ⟨entry, hentry, heq⟩ := List.mem_map.mp hglobal
          rw [List.any_eq_true.mpr ⟨entry, hentry, by simpa using heq⟩]
          rfl
    · exact ih (ih h)
    · exact ih (ih (ih h))
    · split
      · exact h
      · exact ih h
    · exact h

theorem liftedOf_not_global (m : Module) (globals : List (NodeId × String)) :
    ∀ node ∈ liftedOf m globals, node ∉ globals.map (·.1) := by
  unfold liftedOf
  refine List.foldlRecOn (motive := fun lifted : List NodeId =>
    ∀ node ∈ lifted, node ∉ globals.map (·.1)) m.definitions _ ?_ ?_
  · simp
  · intro lifted h definition _
    exact collect_lifted h

/-- A round keeps the lambdas it is about. -/
theorem captureRound_keys (m : Module) (lifted : List NodeId) (captures : Captures) :
    (captureRound m lifted captures).1.map (·.1) = captures.map (·.1) := by
  induction lifted generalizing captures with
  | nil => rfl
  | cons id rest ih =>
    unfold captureRound
    simp only
    split
    · exact ih captures
    · refine (ih _).trans ?_
      rw [List.map_map]
      apply List.map_congr_left
      rintro ⟨key, old⟩ -
      simp only [Function.comp_apply]
      split <;> rfl

theorem captureRounds_keys (m : Module) (lifted : List NodeId) (fuel round : Nat)
    (captures : Captures) :
    (captureRounds m lifted fuel round captures).1.map (·.1) = captures.map (·.1) := by
  induction fuel generalizing round captures with
  | zero => rfl
  | succ fuel ih =>
    unfold captureRounds
    simp only
    split
    · exact (ih _ _).trans (captureRound_keys m lifted captures)
    · exact captureRound_keys m lifted captures

/-- Top-level functions capture nothing. -/
def Plan.Settled (p : Plan) : Prop := ∀ id ∈ p.globals.map (·.1), p.captures.of id = []

theorem Plan.Settled.captures_of_slot (h : p.Settled) {slot : Nat} (hslot : p.slot? id = some slot) :
    p.captures.of id = [] :=
  h id (List.mem_of_getElem? (getElem_of_lastIndex hslot))

theorem planOf_settled (m : Module) (direct : Bool) : (planOf m direct).1.Settled := by
  have hkeys : (planOf m direct).1.captures.map (·.1) = liftedOf m (globalsOf m) := by
    have hrounds := captureRounds_keys m (liftedOf m (globalsOf m))
      ((liftedOf m (globalsOf m)).length * m.graph.size + 2) 0
      ((liftedOf m (globalsOf m)).map (·, []))
    rw [List.map_map] at hrounds
    exact hrounds.trans (List.map_id _)
  -- captures are listed for lifted lambdas, of which no top-level function is one
  intro id hglobal
  unfold Captures.of
  cases hlookup : (planOf m direct).1.captures.lookup id with
  | none => rfl
  | some nodes =>
    obtain ⟨before, after, heq, _⟩ := List.lookup_eq_some_iff.mp hlookup
    have hlifted : id ∈ liftedOf m (globalsOf m) := by
      rw [← hkeys, heq]
      simp
    exact absurd hglobal (liftedOf_not_global m (globalsOf m) id hlifted)

/-! ## The outline of a module -/

theorem expand_direct (p : Plan) (direct : Bool) (scope : List NodeId) (fuel : Nat)
    (inlining : List NodeId) (id : NodeId) :
    expand { p with direct } scope fuel inlining id = expand p scope fuel inlining id := by
  induction fuel generalizing inlining id with
  | zero => rfl
  | succ fuel ih =>
    have hinline : ∀ target, expand { p with direct } scope fuel (target :: inlining) =
        expand p scope fuel (target :: inlining) := fun target => funext (ih _)
    simp only [expand, ih, hinline]
    rfl

/-- Terms do not depend on how intrinsics are called. -/
theorem Plan.outline_direct (p : Plan) (direct : Bool) (entry : NodeId) :
    Plan.outline { p with direct } entry = p.outline entry := by
  have hroutine : Plan.routine { p with direct } = p.routine := by
    funext part
    unfold Plan.routine
    simp only [expand_direct]
    rfl
  have hmain : Plan.main { p with direct } entry = p.main entry := by
    unfold Plan.main
    have hinline : expand { p with direct } [] (walkBound p.module) [entry] =
        expand p [] (walkBound p.module) [entry] := funext (expand_direct p direct _ _ _)
    rw [hinline]
    rfl
  unfold Plan.outline
  rw [hroutine, hmain]
  rfl

/-- The outline of the program of a module. -/
def outlineOf (m : Module) : Except ConvertError Outline :=
  match m.definition? m.entry with
  | none => .error (.missingEntry m.entry)
  | some entry => (planOf m false).1.outline entry

/-- Conversion assembles the outline of the module, the one way or the other. -/
theorem convert_eq (shaped : m.Shaped) (direct : Bool) :
    (convert direct m).1 = (outlineOf m).map fun o => (o.assemble direct m ⟨0, []⟩).1 := by
  unfold convert outlineOf
  cases m.definition? m.entry with
  | none => rfl
  | some entry =>
    have hplan : (planOf m direct).1.outline entry = (planOf m false).1.outline entry :=
      (planOf m false).1.outline_direct direct entry
    have hprogram : Conversion.program (planOf m direct).1 entry ⟨0, []⟩ = _ :=
      Conversion.program_eq shaped entry ⟨0, []⟩
    simp only [StateT.run, hprogram, hplan]
    cases (planOf m false).1.outline entry with
    | error e => simp only [Except.map]
    | ok o =>
      simp only [Except.map]
      rfl

theorem outlineOf_covers (h : outlineOf m = .ok o) :
    ∃ entry, m.definition? m.entry = some entry ∧ o.Covers (planOf m false).1 entry := by
  unfold outlineOf at h
  split at h
  · cases h
  · rename_i entry hentry
    exact ⟨entry, hentry, Plan.outline_covers h⟩

end Lamina.Flat
