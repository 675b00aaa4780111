import Mathlib.Logic.Relation
import Lamina.Proofs.Flat.Expansion
import Lamina.Proofs.Flat.Plan

/-!
# The walk that finds the lambdas

What the walk over a definition adds to the lambdas found so far, as a relation without a bound on
the nesting (`Collects`). The walk follows it on every lowered graph (`collect_collects`), so a
larger bound changes nothing.
-/

namespace Lamina.Flat

open Lamina.Core (NodeId NodeKind Module)
open Conversion (Inlinable room room_child room_inline room_le_walkBound)

variable {m : Module}

/-- The walk of a node takes what was found before to what is found after. -/
inductive Collects (m : Module) (globals : List (NodeId × String)) : Found → NodeId → Found → Prop
  /-- A lambda that is a definition or was met before. -/
  | known {found id scope body} (hkind : m.kind id = .lambda scope body)
      (hknown : id ∈ globals.map (·.1) ∨ id ∈ found.lifted) : Collects m globals found id found
  | lift {found after id scope body} (hkind : m.kind id = .lambda scope body)
      (hglobal : id ∉ globals.map (·.1)) (hnew : id ∉ found.lifted)
      (hbody : Collects m globals { found with lifted := found.lifted ++ [id] } body after) :
      Collects m globals found id after
  | application {found middle after id func arg} (hkind : m.kind id = .application func arg)
      (hfunc : Collects m globals found func middle) (harg : Collects m globals middle arg after) :
      Collects m globals found id after
  | conditional {found one two after id test onTrue onFalse}
      (hkind : m.kind id = .conditional test onTrue onFalse)
      (htest : Collects m globals found test one) (htrue : Collects m globals one onTrue two)
      (hfalse : Collects m globals two onFalse after) : Collects m globals found id after
  /-- A reference that is not followed. -/
  | pass {found id target} (hkind : m.kind id = .indirection target)
      (hpass : m.isDefinition target = true ∨ NodeKind.isLocalValue (m.kind target) = false ∨
        target ∈ found.entered) : Collects m globals found id found
  | enter {found after : Found} {id target : NodeId} (hkind : m.kind id = .indirection target)
      (hlocal : m.isDefinition target = false)
      (hvalue : NodeKind.isLocalValue (m.kind target) = true) (hnew : target ∉ found.entered)
      (htarget : Collects m globals { found with entered := target :: found.entered } target
        after) :
      Collects m globals found id after
  | leaf {found id} (hchildren : (m.kind id).children = [])
      (hreference : ∀ target, m.kind id ≠ .indirection target) : Collects m globals found id found

/-! ## The bound on nesting -/

section

variable {m : Module} {globals : List (NodeId × String)} {found after : Found} {id : NodeId}

/-- What was entered stays so. -/
theorem Collects.entered_suffix (h : Collects m globals found id after) :
    found.entered <:+ after.entered := by
  induction h with
  | known | pass | leaf => exact List.suffix_rfl
  | lift _ _ _ _ ih => exact ih
  | application _ _ _ ihfunc iharg => exact ihfunc.trans iharg
  | conditional _ _ _ _ ihtest ihtrue ihfalse => exact (ihtest.trans ihtrue).trans ihfalse
  | enter _ _ _ _ _ ih => exact (List.suffix_cons _ _).trans ih

/-- The walk enters each local value once. -/
theorem Collects.inlinable (shaped : m.Shaped) (h : Collects m globals found id after)
    (hinl : Inlinable m found.entered) : Inlinable m after.entered := by
  induction h with
  | known | pass | leaf => exact hinl
  | lift _ _ _ _ ih => exact ih hinl
  | application _ _ _ ihfunc iharg => exact iharg (ihfunc hinl)
  | conditional _ _ _ _ ihtest ihtrue ihfalse => exact ihfalse (ihtrue (ihtest hinl))
  | enter hkind _ _ hnew _ ih => exact ih (hinl.cons (shaped.target_lt hkind) hnew)

theorem room_mono {entered more} (h : entered.length ≤ more.length) (id : NodeId) :
    room m more id ≤ room m entered id := by
  have hmul : (m.graph.size - more.length) * (m.graph.size + 2) ≤
      (m.graph.size - entered.length) * (m.graph.size + 2) :=
    Nat.mul_le_mul_right _ (by omega)
  unfold room
  omega

/-- With room for the nesting, the walk does what the relation says. -/
theorem collect_collects (shaped : m.Shaped) {fuel : Nat} (hinl : Inlinable m found.entered)
    (hroom : room m found.entered id ≤ fuel) :
    Collects m globals found id (collect m globals fuel id found) := by
  induction fuel generalizing found id with
  | zero =>
    unfold room at hroom
    omega
  | succ fuel ih =>
    -- what was entered on the way leaves room for the children that are still to be walked
    have hchild : ∀ {child middle}, child ∈ (m.kind id).children →
        Inlinable m middle.entered → found.entered.length ≤ middle.entered.length →
        Collects m globals middle child (collect m globals fuel child middle) := by
      intro child middle hmem hmiddle hle
      have hless := room_child shaped found.entered hmem
      have hmono := room_mono (m := m) hle child
      exact ih hmiddle (by omega)
    cases hkind : m.kind id with
    | lambda scope body =>
      rw [collect, hkind]
      simp only
      split
      · rename_i hknown
        refine .known hkind ?_
        simpa [List.any_eq_true] using hknown
      · rename_i hnew
        simp only [Bool.or_eq_true, not_or] at hnew
        refine .lift hkind ?_ ?_ (hchild (by simp [hkind, NodeKind.children]) hinl
          (Nat.le_refl _))
        · simpa [List.any_eq_true] using hnew.1
        · simpa using hnew.2
    | application func arg =>
      rw [collect, hkind]
      have hfunc := @hchild func found (by simp [hkind, NodeKind.children]) hinl (Nat.le_refl _)
      exact .application hkind hfunc (hchild (by simp [hkind, NodeKind.children])
        (hfunc.inlinable shaped hinl) hfunc.entered_suffix.length_le)
    | conditional test onTrue onFalse =>
      rw [collect, hkind]
      have htest := @hchild test found (by simp [hkind, NodeKind.children]) hinl (Nat.le_refl _)
      have hone := htest.inlinable shaped hinl
      have htrue := @hchild onTrue _ (by simp [hkind, NodeKind.children]) hone
        htest.entered_suffix.length_le
      exact .conditional hkind htest htrue (hchild (by simp [hkind, NodeKind.children])
        (htrue.inlinable shaped hone) (htest.entered_suffix.trans htrue.entered_suffix).length_le)
    | indirection target =>
      rw [collect, hkind]
      simp only
      split
      · rename_i hpass
        refine .pass hkind ?_
        simpa [or_assoc] using hpass
      · rename_i henter
        simp only [Bool.or_eq_true, not_or] at henter
        have hnew : target ∉ found.entered := by simpa using henter.2
        have hinl' := hinl.cons (shaped.target_lt hkind) hnew
        have hless := room_inline hinl' id
        have hle : room m (target :: found.entered) target ≤ fuel := by omega
        refine .enter hkind ?_ ?_ hnew (ih hinl' hle)
        · simpa using henter.1.1
        · simpa using henter.1.2
    | _ =>
      rw [collect, hkind]
      exact .leaf (by simp [hkind, NodeKind.children]) (by simp [hkind])

/-- What is found after the walk of a node depends on what was found before, and on nothing else. -/
theorem Collects.unique {other : Found} (h : Collects m globals found id after)
    (h' : Collects m globals found id other) : after = other := by
  induction h generalizing other with
  | known hkind hknown => cases h' <;> simp_all [NodeKind.children]
  | lift hkind hglobal hnew _ ih =>
    cases h' with
    | lift hkind' _ _ hbody' =>
      cases hkind.symm.trans hkind'
      exact ih hbody'
    | _ => simp_all [NodeKind.children]
  | application hkind _ _ ihfunc iharg =>
    cases h' with
    | application hkind' hfunc' harg' =>
      cases hkind.symm.trans hkind'
      cases ihfunc hfunc'
      exact iharg harg'
    | _ => simp_all [NodeKind.children]
  | conditional hkind _ _ _ ihtest ihtrue ihfalse =>
    cases h' with
    | conditional hkind' htest' htrue' hfalse' =>
      cases hkind.symm.trans hkind'
      cases ihtest htest'
      cases ihtrue htrue'
      exact ihfalse hfalse'
    | _ => simp_all [NodeKind.children]
  | pass hkind hpass => cases h' <;> simp_all
  | enter hkind hlocal hvalue hnew _ ih =>
    cases h' with
    | enter hkind' _ _ _ htarget' =>
      cases hkind.symm.trans hkind'
      exact ih htarget'
    | _ => simp_all
  | leaf hchildren hreference => cases h' <;> simp_all [NodeKind.children]

end

/-! ## The lambdas of a module -/

/-- One node leads to another through what belongs to its evaluation. -/
abbrev Leads (m : Module) : NodeId → NodeId → Prop :=
  Relation.ReflTransGen fun id next => next ∈ evaluated m id

/-- The code of a definition: the body of a function, or the value itself. -/
def startOf (m : Module) (root : NodeId) : NodeId :=
  match m.kind root with
  | .lambda _ body => body
  | _ => root

end Lamina.Flat
