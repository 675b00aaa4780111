import Mathlib.Combinatorics.Pigeonhole
import Lamina.Core.Graph

/-!
# Following indirections

Resolving a node takes no more steps than there are nodes, and one. That is enough: a chain of
indirections that ends visits no node twice, so it is no longer than the table; and a walk that does
not end has come back to an earlier node by then, so where it stops it is on a cycle.
-/

namespace Lamina.Core.Graph

variable {g : Graph} {id next last : NodeId} {steps : Nat}

/-- The node refers to another one. -/
def IsIndirection (g : Graph) (id : NodeId) : Prop := ∃ target, g.kind id = .indirection target

/-- Exactly `steps` indirections lead from the first node to the second. All nodes on the way, up to
the last, are indirections. -/
inductive Leads (g : Graph) : (steps : Nat) → NodeId → NodeId → Prop
  | here (id : NodeId) : Leads g 0 id id
  | step {id next last : NodeId} {steps : Nat} (hkind : g.kind id = .indirection next)
      (hrest : Leads g steps next last) : Leads g (steps + 1) id last

/-- One step of the walk. It stays at a node that is no indirection. -/
def chase (g : Graph) (id : NodeId) : NodeId := g.resolveWithin 1 id

theorem chase_of_kind (h : g.kind id = .indirection next) : g.chase id = next := by
  simp [chase, resolveWithin, h]

theorem chase_of_not (h : ¬g.IsIndirection id) : g.chase id = id := by
  unfold chase resolveWithin
  split
  · exact absurd ⟨_, ‹_›⟩ h
  · rfl

theorem resolveWithin_eq_iterate (g : Graph) (steps : Nat) (id : NodeId) :
    g.resolveWithin steps id = g.chase^[steps] id := by
  induction steps generalizing id with
  | zero => rfl
  | succ steps ih =>
    rw [Function.iterate_succ_apply, ← ih]
    by_cases hid : g.IsIndirection id
    · obtain ⟨next, hnext⟩ := hid
      rw [chase_of_kind hnext]
      simp [resolveWithin, hnext]
    · -- from here on the walk stays where it is
      rw [chase_of_not hid, ih, Function.iterate_fixed (chase_of_not hid)]
      unfold resolveWithin
      split
      · exact absurd ⟨_, ‹_›⟩ hid
      · rfl

/-- The walk goes from indirection to indirection, and arrives at the last node. -/
theorem leads_iff : g.Leads steps id last ↔
    (∀ i < steps, g.IsIndirection (g.chase^[i] id)) ∧ g.chase^[steps] id = last := by
  induction steps generalizing id with
  | zero =>
    refine ⟨fun h => ?_, fun h => ?_⟩
    · cases h
      exact ⟨nofun, rfl⟩
    · cases h.2
      exact .here id
  | succ steps ih =>
    refine ⟨fun h => ?_, fun ⟨hall, hlast⟩ => ?_⟩
    · cases h with
      | step hkind hrest =>
        rw [ih, ← chase_of_kind hkind] at hrest
        refine ⟨fun i hi => ?_, hrest.2⟩
        cases i with
        | zero => exact ⟨_, hkind⟩
        | succ i => exact hrest.1 i (Nat.lt_of_succ_lt_succ hi)
    · obtain ⟨next, hnext⟩ := hall 0 (Nat.succ_pos steps)
      refine .step hnext (ih.mpr ?_)
      rw [← chase_of_kind hnext]
      exact ⟨fun i hi => hall (i + 1) (Nat.succ_lt_succ hi), hlast⟩

theorem IsIndirection.lt_size (h : g.IsIndirection id) : id < g.size := by
  obtain ⟨target, htarget⟩ := h
  by_contra hge
  rw [kind, Array.getElem?_eq_none (Nat.le_of_not_lt hge)] at htarget
  cases htarget

/-- A walk over more indirections than there are nodes comes back to one of them. -/
theorem exists_chase_eq (h : ∀ i ≤ g.size, g.IsIndirection (g.chase^[i] id)) :
    ∃ i j, i < j ∧ j ≤ g.size ∧ g.chase^[i] id = g.chase^[j] id := by
  have hmaps : ∀ i ∈ Finset.range (g.size + 1), g.chase^[i] id ∈ Finset.range g.size :=
    fun i hi => Finset.mem_range.mpr (h i (Finset.mem_range_succ_iff.mp hi)).lt_size
  obtain ⟨i, hi, j, hj, hne, heq⟩ :=
    Finset.exists_ne_map_eq_of_card_lt_of_maps_to (by simp) hmaps
  rw [Finset.mem_range_succ_iff] at hi hj
  rcases Nat.lt_or_gt_of_ne hne with hlt | hlt
  · exact ⟨i, j, hlt, hj, heq⟩
  · exact ⟨j, i, hlt, hi, heq.symm⟩

/-- A chain that ends is no longer than the table. -/
theorem Leads.le_size (h : g.Leads steps id last) (hlast : ¬g.IsIndirection last) :
    steps ≤ g.size := by
  rw [leads_iff] at h
  obtain ⟨hall, rfl⟩ := h
  by_contra hlong
  obtain ⟨i, j, hij, hj, heq⟩ := exists_chase_eq fun i hi => hall i (by omega)
  -- leaving the loop out, the walk gets to its end sooner
  have hshort : g.chase^[steps] id = g.chase^[steps - j + i] id := by
    rw [Function.iterate_add_apply, heq, ← Function.iterate_add_apply]
    congr 1
    omega
  exact hlast (hshort ▸ hall (steps - j + i) (by omega))

/-- A walk that does not end is on a cycle once it has made as many steps as there are nodes. -/
theorem exists_cycle (h : ∀ i, g.IsIndirection (g.chase^[i] id)) (hsteps : g.size ≤ steps) :
    ∃ period > 0, g.Leads period (g.chase^[steps] id) (g.chase^[steps] id) := by
  obtain ⟨i, j, hij, hj, heq⟩ := exists_chase_eq fun i _ => h i
  refine ⟨j - i, by omega, leads_iff.mpr ⟨fun k _ => ?_, ?_⟩⟩
  · rw [← Function.iterate_add_apply]
    exact h (k + steps)
  · calc
      g.chase^[j - i] (g.chase^[steps] id) = g.chase^[steps - i] (g.chase^[j] id) := by
        rw [← Function.iterate_add_apply, ← Function.iterate_add_apply]
        congr 1
        omega
      _ = g.chase^[steps] id := by
        rw [← heq, ← Function.iterate_add_apply]
        congr 1
        omega

theorem exists_leads (g : Graph) (steps : Nat) (id : NodeId) :
    ∃ made ≤ steps, g.Leads made id (g.resolveWithin steps id) := by
  induction steps generalizing id with
  | zero => exact ⟨0, Nat.le_refl 0, .here id⟩
  | succ steps ih =>
    unfold resolveWithin
    split
    · rename_i next hkind
      obtain ⟨made, hmade, hleads⟩ := ih next
      exact ⟨made + 1, Nat.succ_le_succ hmade, .step hkind hleads⟩
    · exact ⟨0, Nat.zero_le _, .here id⟩

/-- Resolving a node is exact, and safe on cycles. It follows at most as many indirections as there
are nodes, and one. If the chain from the node ends, however long it is, the answer is its end, the
first node that is no indirection; if it does not end, the answer is an indirection on a cycle. -/
theorem resolve_chases (g : Graph) (id : NodeId) :
    (∃ steps ≤ g.size + 1, g.Leads steps id (g.resolve id)) ∧
      (∀ steps last, g.Leads steps id last → ¬g.IsIndirection last → g.resolve id = last) ∧
      ((∀ steps last, g.Leads steps id last → g.IsIndirection last) →
        g.IsIndirection (g.resolve id) ∧
          ∃ period > 0, g.Leads period (g.resolve id) (g.resolve id)) := by
  refine ⟨exists_leads g (g.size + 1) id, fun steps last hleads hlast => ?_, fun hinfinite => ?_⟩
  · have hsteps := hleads.le_size hlast
    obtain ⟨_, hend⟩ := leads_iff.mp hleads
    -- the steps that are left over do not move the walk
    obtain ⟨spare, hspare⟩ : ∃ spare, g.size + 1 = spare + steps := ⟨g.size + 1 - steps, by omega⟩
    rw [resolve, resolveWithin_eq_iterate, hspare, Function.iterate_add_apply, hend]
    exact Function.iterate_fixed (chase_of_not hlast) spare
  · have hall : ∀ i, g.IsIndirection (g.chase^[i] id) := by
      intro i
      induction i using Nat.strongRecOn with
      | ind i ih => exact hinfinite i _ (leads_iff.mpr ⟨ih, rfl⟩)
    rw [resolve, resolveWithin_eq_iterate]
    exact ⟨hall _, exists_cycle hall (Nat.le_succ _)⟩

end Lamina.Core.Graph
