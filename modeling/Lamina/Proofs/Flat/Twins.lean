import Lamina.Proofs.Core.Twins
import Lamina.Proofs.Flat.Failure

/-!
# Twins are converted together

Whatever conversion asks about a node of a module has the same answer for the node of a twin that
stands for it, but that where the one has an operator the other may refer to one: a path through the
one is a path through the other, or it ends in an operator. What a walk over the definitions finds
depends on the order of the definitions, but which lambdas it finds does not (`mem_liftedOf_iff`).
So twins have outlines together (`outlineOf_twins_iff`), and lambdas that stand for one another
capture parameters that do (`length_captures_twins`).
-/

namespace Lamina.Flat

open Lamina.Core (NodeId NodeKind Module Matching Twins)
open Relation (ReflTransGen TransGen)

section

variable {α β : Type} {R : α → β → Prop} {a last : α} {as : List α} {bs : List β} {r : α → α → Prop}
  {s : β → β → Prop} {a' : β}

variable {D : α → Prop}
  (hstep : ∀ {a a'}, R a a' → ∀ {next}, r a next → (∃ next', s a' next' ∧ R next next') ∨ D next)
  (hdead : ∀ {a next}, D a → ¬ r a next)

include hstep hdead

/-- If each step is followed by one, or leads to a dead end, so do steps one after the other. -/
theorem exists_reflTransGen (ha : R a a') (h : ReflTransGen r a last) :
    (∃ last', ReflTransGen s a' last' ∧ R last last') ∨ D last := by
  induction h with
  | refl => exact .inl ⟨a', .refl, ha⟩
  | tail _ hlast ih =>
    rcases ih with ⟨middle', hmiddle', hrel⟩ | hend
    · refine (hstep hrel hlast).imp_left ?_
      rintro ⟨last', hlast', hrel'⟩
      exact ⟨last', hmiddle'.tail hlast', hrel'⟩
    · exact absurd hlast (hdead hend)

/-- A cycle is followed by one. -/
theorem exists_cycle (hunique : Relator.RightUnique R) (ha : R a a') (h : ReflTransGen r a last)
    (hcycle : TransGen r last last) : ∃ last', ReflTransGen s a' last' ∧ TransGen s last' last' := by
  have hlive : ¬ D last := by
    intro hend
    obtain ⟨next, hnext, _⟩ := TransGen.head'_iff.mp hcycle
    exact hdead hend hnext
  obtain ⟨last', hlast', hrel⟩ := (exists_reflTransGen hstep hdead ha h).resolve_right hlive
  obtain ⟨before, hbefore, hback⟩ := TransGen.tail'_iff.mp hcycle
  obtain ⟨before', hbefore', hrel'⟩ := (exists_reflTransGen hstep hdead hrel hbefore).resolve_right
    fun hend => hdead hend hback
  obtain ⟨again, hagain, hrel''⟩ := (hstep hrel' hback).resolve_right hlive
  rw [hunique hrel'' hrel] at hagain
  exact ⟨last', hlast', .tail' hbefore' hagain⟩

omit hstep hdead

/-- Lists without repetition, in which each member of the one stands for one of the other. -/
theorem length_le_of_forall_exists [Nonempty β] (hunique : Relator.LeftUnique R) (hnodup : as.Nodup)
    (h : ∀ a ∈ as, ∃ b ∈ bs, R a b) : as.length ≤ bs.length := by
  choose! f hf using h
  have hinj : (as.map f).Nodup := hnodup.map_on fun a ha b hb heq =>
    hunique (hf a ha).2 (heq ▸ (hf b hb).2)
  have hsub : as.map f ⊆ bs := by
    intro b hb
    obtain ⟨a, ha, rfl⟩ := List.mem_map.mp hb
    exact (hf a ha).1
  simpa using (hinj.subperm hsub).length_le

end

section

variable {C : String → Prop} {R : NodeId → NodeId → Prop} {m m' : Module} {id id' : NodeId}
  {name : String}

/-! ## Contents -/

theorem kind_twins (h : Twins C R m m') (hid : R id id') {kind : NodeKind}
    (hkind : m.kind id = kind) : ∃ kind', m'.kind id' = kind' ∧ Matching m m' C R kind kind' :=
  ⟨_, rfl, hkind ▸ h.kind hid⟩

theorem lambda_twins (h : Twins C R m m') (hid : R id id') {scope body : NodeId}
    (hkind : m.kind id = .lambda scope body) :
    ∃ scope' body', m'.kind id' = .lambda scope' body' ∧ R body body' := by
  obtain ⟨kind', hkind', hmatching⟩ := kind_twins h hid hkind
  cases hmatching with
  | lambda _ hbody => exact ⟨_, _, hkind', hbody⟩

theorem not_lambda_twins (h : Twins C R m m') (hid : R id id')
    (hlambda : ∀ scope body, m.kind id ≠ .lambda scope body) (scope' body' : NodeId) :
    m'.kind id' ≠ .lambda scope' body' := by
  intro hkind'
  obtain ⟨scope, body, hkind, _⟩ := lambda_twins h.symm hid hkind'
  exact hlambda scope body hkind

theorem placeholder_twins (h : Twins C R m m') (hid : R id id') (hkind : m.kind id = .placeholder) :
    m'.kind id' = .placeholder := by
  obtain ⟨kind', hkind', hmatching⟩ := kind_twins h hid hkind
  cases hmatching
  exact hkind'

theorem indirection_twins (h : Twins C R m m') (hid : R id id') {target : NodeId}
    (hkind : m.kind id = .indirection target) :
    (∃ target', m'.kind id' = .indirection target' ∧ R target target') ∨
      ∃ op, m.kind target = .intrinsic op ∧ m'.kind id' = .intrinsic op := by
  obtain ⟨kind', hkind', hmatching⟩ := kind_twins h hid hkind
  cases hmatching with
  | indirection htarget => exact .inl ⟨_, hkind', htarget⟩
  | referred hop => exact .inr ⟨_, hop, hkind'⟩

theorem isLambda_twins (h : Twins C R m m') (hid : R id id') :
    isLambda (m.kind id) = isLambda (m'.kind id') := by
  have hmatching := h.kind hid
  generalize m.kind id = kind at hmatching
  generalize m'.kind id' = kind' at hmatching
  cases hmatching <;> rfl

theorem children_twins (h : Twins C R m m') (hid : R id id') :
    List.Forall₂ R (m.kind id).children (m'.kind id').children := by
  have hmatching := h.kind hid
  generalize m.kind id = kind at hmatching
  generalize m'.kind id' = kind' at hmatching
  cases hmatching with
  | application hfunc harg => exact .cons hfunc (.cons harg .nil)
  | lambda _ hbody => exact .cons hbody .nil
  | conditional htest htrue hfalse => exact .cons htest (.cons htrue (.cons hfalse .nil))
  | _ => exact .nil

theorem params_twins (h : Twins C R m m') (hid : R id id') :
    List.Forall₂ R (m.params id) (m'.params id') := by
  have hmatching := h.kind hid
  unfold Module.params
  generalize m.kind id = kind at hmatching
  generalize m'.kind id' = kind' at hmatching
  cases hmatching with
  | lambda hparams _ => exact hparams
  | _ => exact .nil

/-! ## Definitions -/

theorem definition_twins (h : Twins C R m m') (hname : m.definition? name = some id) :
    ∃ id', m'.definition? name = some id' ∧ R id id' := by
  have hdefinition := h.definition name
  rw [hname] at hdefinition
  generalize m'.definition? name = found' at hdefinition
  cases hdefinition with
  | some hnode => exact ⟨_, rfl, hnode⟩

theorem mem_definitions_twins (h : Twins C R m m') (hname : (name, id) ∈ m.definitions) :
    ∃ id', (name, id') ∈ m'.definitions ∧ R id id' := by
  obtain ⟨id', hname', hid⟩ := definition_twins h (lookup_of_mem h.keys hname)
  exact ⟨id', mem_of_lookup hname', hid⟩

theorem isDefinition_of_twins (h : Twins C R m m') (hid : R id id')
    (hdefinition : m.isDefinition id = true) : m'.isDefinition id' = true := by
  obtain ⟨name, hname⟩ := isDefinition_iff.mp hdefinition
  obtain ⟨other, hother, hrel⟩ := mem_definitions_twins h hname
  rw [h.unique.2 hid hrel]
  exact isDefinition_iff.mpr ⟨name, hother⟩

theorem isDefinition_twins (h : Twins C R m m') (hid : R id id') :
    m.isDefinition id = m'.isDefinition id' :=
  Bool.eq_iff_iff.mpr ⟨isDefinition_of_twins h hid, isDefinition_of_twins h.symm hid⟩

/-! ## Evaluation -/

theorem mem_followed_twins (h : Twins C R m m') (hid : R id id') {child : NodeId}
    (hchild : child ∈ followed m id) :
    (∃ child' ∈ followed m' id', R child child') ∨ ∃ op, m.kind child = .intrinsic op := by
  rcases mem_followed_iff.mp hchild with howns | ⟨hkind, hlocal⟩
  · obtain ⟨child', hchild', hrel⟩ := exists_mem_of_forall₂ (children_twins h hid) howns
    exact .inl ⟨child', mem_followed_iff.mpr (.inl hchild'), hrel⟩
  · refine (indirection_twins h hid hkind).imp ?_ ?_
    · rintro ⟨child', hkind', hrel⟩
      rw [isDefinition_twins h hrel] at hlocal
      exact ⟨child', mem_followed_iff.mpr (.inr ⟨hkind', hlocal⟩), hrel⟩
    · rintro ⟨op, hop, _⟩
      exact ⟨op, hop⟩

theorem mentions_twins (h : Twins C R m m') (hid : R id id') {x : NodeId} (hx : Mentions m id x) :
    ∃ x', Mentions m' id' x' ∧ R x x' := by
  induction hx generalizing id' with
  | here hkind => exact ⟨id', .here (placeholder_twins h hid hkind), hid⟩
  | step hnext hmore ih =>
    obtain ⟨hlambda, hnext⟩ := mem_evaluated_iff.mp hnext
    rcases mem_followed_twins h hid hnext with ⟨next', hnext', hrel⟩ | ⟨op, hop⟩
    · obtain ⟨x', hx', hrel'⟩ := ih hrel
      rw [isLambda_twins h hid] at hlambda
      exact ⟨x', .step (mem_evaluated_iff.mpr ⟨hlambda, hnext'⟩) hx', hrel'⟩
    · exact absurd hmore (not_mentions_intrinsic hop)
  | lambda hkind _ hown ih =>
    obtain ⟨scope', body', hkind', hbody⟩ := lambda_twins h hid hkind
    obtain ⟨x', hx', hrel⟩ := ih hbody
    refine ⟨x', .lambda hkind' hx' fun hown' => hown ?_, hrel⟩
    exact (List.rel_mem h.unique hrel (params_twins h hid)).mpr hown'

theorem inlines_twins (h : Twins C R m m') (hid : R id id') {next : NodeId}
    (hnext : Inlines m id next) :
    (∃ next', Inlines m' id' next' ∧ R next next') ∨ ∃ op, m.kind next = .intrinsic op := by
  cases hnext with
  | child hlambda hchild =>
    obtain ⟨child', hchild', hrel⟩ := exists_mem_of_forall₂ (children_twins h hid) hchild
    exact .inl ⟨child', .child (not_lambda_twins h hid hlambda) hchild', hrel⟩
  | reference hkind htarget =>
    refine (indirection_twins h hid hkind).imp ?_ ?_
    · rintro ⟨target', hkind', hrel⟩
      exact ⟨target', .reference hkind' (not_lambda_twins h hrel htarget), hrel⟩
    · rintro ⟨op, hop, _⟩
      exact ⟨op, hop⟩

theorem not_inlines_intrinsic {op} (hkind : m.kind id = .intrinsic op) {next} :
    ¬ Inlines m id next := by
  intro hnext
  cases hnext with
  | child _ hchild => simp [hkind, NodeKind.children] at hchild
  | reference hreference => simp [hkind] at hreference

end

/-! ## The lambdas that are found -/

section

variable {C : String → Prop} {R : NodeId → NodeId → Prop} {m m' : Module} {id id' : NodeId}

theorem isLifted_twins (h : Twins C R m m') (hid : R id id') : isLifted m id = isLifted m' id' := by
  unfold isLifted
  rw [isLambda_twins h hid, isDefinition_twins h hid]

/-- What there is a path to from a definition has a twin, or is an operator. -/
theorem reached_twins (h : Twins C R m m') (hreached : Reached m id) :
    (∃ id', Reached m' id' ∧ R id id') ∨ ∃ op, m.kind id = .intrinsic op := by
  obtain ⟨root, hroot, hpath⟩ := hreached
  obtain ⟨⟨name, _⟩, hname, rfl⟩ := List.mem_map.mp hroot
  obtain ⟨root', hname', hrel⟩ := mem_definitions_twins h hname
  refine (exists_reflTransGen (mem_followed_twins h) ?_ hrel hpath).imp_left ?_
  · rintro node next ⟨op, hop⟩ hnext
    simp [followed, hop, NodeKind.children] at hnext
  · rintro ⟨id', hpath', hid⟩
    exact ⟨id', ⟨root', List.mem_map.mpr ⟨_, hname', rfl⟩, hpath'⟩, hid⟩

theorem mem_liftedOf_twins (h : Twins C R m m') (regular : Regular m) (regular' : Regular m')
    (hid : id ∈ liftedOf m (globalsOf m)) : ∃ id' ∈ liftedOf m' (globalsOf m'), R id id' := by
  obtain ⟨hlifted, hreached⟩ := (mem_liftedOf_iff regular).mp hid
  obtain ⟨id', hreached', hrel⟩ := (reached_twins h hreached).resolve_right (by
    rintro ⟨op, hop⟩
    simp [isLifted, hop, isLambda] at hlifted)
  exact ⟨id', (mem_liftedOf_iff regular').mpr ⟨isLifted_twins h hrel ▸ hlifted, hreached'⟩, hrel⟩

/-! ## Outlines -/

theorem codeRoot_twins (h : Twins C R m m') (regular : Regular m) (regular' : Regular m')
    {root : NodeId} (hroot : CodeRoot m root) : ∃ root', CodeRoot m' root' ∧ R root root' := by
  cases hroot with
  | entry hentry =>
    obtain ⟨root', hentry', hrel⟩ := definition_twins h hentry
    exact ⟨root', .entry (h.entry ▸ hentry'), hrel⟩
  | definition hname hkind =>
    obtain ⟨id', hname', hid⟩ := mem_definitions_twins h hname
    obtain ⟨_, body', hkind', hbody⟩ := lambda_twins h hid hkind
    exact ⟨body', .definition hname' hkind', hbody⟩
  | lifted hid hkind =>
    obtain ⟨id', hid', hrel⟩ := mem_liftedOf_twins h regular regular' hid
    obtain ⟨_, body', hkind', hbody⟩ := lambda_twins h hrel hkind
    exact ⟨body', .lifted hid' hkind', hbody⟩

/-- If some code leads to a value that is needed for itself, some code of a twin does so too. -/
theorem again_twins (h : Twins C R m m') (regular : Regular m) (regular' : Regular m')
    (hagain : ∃ root value, CodeRoot m root ∧ ReflTransGen (Inlines m) root value ∧
      TransGen (Inlines m) value value) :
    ∃ root value, CodeRoot m' root ∧ ReflTransGen (Inlines m') root value ∧
      TransGen (Inlines m') value value := by
  obtain ⟨root, value, hroot, hreached, hloop⟩ := hagain
  obtain ⟨root', hroot', hrel⟩ := codeRoot_twins h regular regular' hroot
  obtain ⟨value', hreached', hloop'⟩ := exists_cycle (inlines_twins h)
    (fun ⟨_, hop⟩ => not_inlines_intrinsic hop) h.unique.2 hrel hreached hloop
  exact ⟨root', value', hroot', hreached', hloop'⟩

/-- Twins have outlines together. -/
theorem outlineOf_twins_iff (h : Twins C R m m') (regular : Regular m) (regular' : Regular m') :
    (∃ o, outlineOf m = .ok o) ↔ ∃ o', outlineOf m' = .ok o' := by
  rw [outlineOf_ok_iff regular, outlineOf_ok_iff regular']
  refine and_congr ⟨?_, ?_⟩ (not_congr ⟨again_twins h regular regular',
    again_twins h.symm regular' regular⟩)
  · rintro ⟨entry, hentry⟩
    obtain ⟨entry', hentry', _⟩ := definition_twins h hentry
    exact ⟨entry', h.entry ▸ hentry'⟩
  · rintro ⟨entry, hentry⟩
    obtain ⟨entry', hentry', _⟩ := definition_twins h.symm hentry
    exact ⟨entry', h.entry ▸ hentry'⟩

/-! ## Captures -/

/-- A lambda captures the parameters that stand for those that its twin captures. -/
theorem exists_capture_twins (h : Twins C R m m') (regular : Regular m) (regular' : Regular m')
    (hid : R id id') (hnode : id ∈ (planOf m false).1.nodes)
    (hnode' : id' ∈ (planOf m' false).1.nodes) :
    ∀ x ∈ (planOf m false).1.captures.of id,
      ∃ x' ∈ (planOf m' false).1.captures.of id', R x x' := by
  intro x hx
  obtain ⟨x', hx', hrel⟩ := mentions_twins h hid ((mem_captures_iff regular hnode).mp hx)
  exact ⟨x', (mem_captures_iff regular' hnode').mpr hx', hrel⟩

theorem length_captures_twins (h : Twins C R m m') (regular : Regular m) (regular' : Regular m')
    (hid : R id id') (hnode : id ∈ (planOf m false).1.nodes)
    (hnode' : id' ∈ (planOf m' false).1.nodes) :
    ((planOf m false).1.captures.of id).length = ((planOf m' false).1.captures.of id').length :=
  Nat.le_antisymm
    (length_le_of_forall_exists h.unique.1 (captures_ascending regular.shaped id).nodup
      (exists_capture_twins h regular regular' hid hnode hnode'))
    (length_le_of_forall_exists h.symm.unique.1 (captures_ascending regular'.shaped id').nodup
      (exists_capture_twins h.symm regular' regular hid hnode' hnode))

end

end Lamina.Flat
