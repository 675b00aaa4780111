import Mathlib.Data.List.Forall2
import Mathlib.Data.List.Nodup

/-!
# Looking keys up

Frames, scopes and environments are lists of bindings, the first of which counts for its key.
-/

namespace Lamina

variable {κ α β : Type} {R : α → β → Prop} {as : List α} {bs : List β} {key : κ}
  {bindings : List (κ × α)} {keys : List κ} {v : α}

theorem exists_mem_of_forall₂ (h : List.Forall₂ R as bs) {a : α} (ha : a ∈ as) :
    ∃ b ∈ bs, R a b := by
  induction h with
  | nil => cases ha
  | cons hab _ ih =>
    rcases List.mem_cons.mp ha with rfl | hmem
    · exact ⟨_, List.mem_cons_self, hab⟩
    · obtain ⟨b, hb, hrel⟩ := ih hmem
      exact ⟨b, List.mem_cons_of_mem _ hb, hrel⟩

theorem forall₂_zip_zip {κ'} {K : κ → κ' → Prop} {keys'} (hkeys : List.Forall₂ K keys keys')
    (h : List.Forall₂ R as bs) :
    List.Forall₂ (fun x y => K x.1 y.1 ∧ R x.2 y.2) (keys.zip as) (keys'.zip bs) := by
  induction h generalizing keys keys' with
  | nil => simp
  | cons hab _ ih =>
    cases hkeys with
    | nil => exact .nil
    | cons hkey hrest => exact .cons ⟨hkey, hab⟩ (ih hrest)

theorem forall₂_zip_left (keys : List κ) (h : List.Forall₂ R as bs) :
    List.Forall₂ (fun x y => x.1 = y.1 ∧ R x.2 y.2) (keys.zip as) (keys.zip bs) :=
  forall₂_zip_zip (List.forall₂_refl keys) h

variable [BEq κ] [LawfulBEq κ]

theorem lookup_cons_of_ne {other : κ} (h : key ≠ other) (v : α) (bindings : List (κ × α)) :
    List.lookup key ((other, v) :: bindings) = bindings.lookup key := by
  rw [List.lookup_cons, beq_eq_false_iff_ne.mpr h]

theorem lookup_eq_none_iff_not_mem : bindings.lookup key = none ↔ key ∉ bindings.map Prod.fst := by
  rw [List.lookup_eq_none_iff, List.mem_map, not_exists]
  refine forall_congr' fun binding => ?_
  rw [bne_iff_ne, not_and, Ne, eq_comm]

theorem mem_of_lookup (h : bindings.lookup key = some v) : (key, v) ∈ bindings := by
  obtain ⟨before, after, rfl, _⟩ := List.lookup_eq_some_iff.mp h
  simp

/-- If no key is bound twice, each binding counts. -/
theorem lookup_of_mem (hnodup : (bindings.map Prod.fst).Nodup) (h : (key, v) ∈ bindings) :
    bindings.lookup key = some v := by
  induction bindings with
  | nil => cases h
  | cons binding rest ih =>
    rw [List.map_cons, List.nodup_cons] at hnodup
    rcases List.mem_cons.mp h with rfl | hmem
    · exact List.lookup_cons_self
    · have hne : key ≠ binding.1 := by
        rintro rfl
        exact hnodup.1 (List.mem_map.mpr ⟨_, hmem, rfl⟩)
      rw [lookup_cons_of_ne hne]
      exact ih hnodup.2 hmem

/-- If no key is bound twice, the order of the bindings has no say. -/
theorem lookup_eq_of_perm {bindings'} (h : bindings.Perm bindings')
    (hnodup : (bindings.map Prod.fst).Nodup) (key : κ) :
    bindings.lookup key = bindings'.lookup key := by
  have hnodup' : (bindings'.map Prod.fst).Nodup := (h.map Prod.fst).nodup_iff.mp hnodup
  cases hlookup : bindings.lookup key with
  | some v => exact (lookup_of_mem hnodup' (h.mem_iff.mp (mem_of_lookup hlookup))).symm
  | none =>
    rw [lookup_eq_none_iff_not_mem, (h.map Prod.fst).mem_iff] at hlookup
    exact (lookup_eq_none_iff_not_mem.mpr hlookup).symm

/-- Bindings of the same keys to related values: under each key there are related values. -/
theorem lookup_of_forall₂ {bindings'}
    (h : List.Forall₂ (fun x y => x.1 = y.1 ∧ R x.2 y.2) bindings bindings')
    (hkey : key ∈ bindings.map Prod.fst) :
    ∃ a b, bindings.lookup key = some a ∧ bindings'.lookup key = some b ∧ R a b := by
  induction h with
  | nil => cases hkey
  | @cons x y _ _ hxy _ ih =>
    obtain ⟨other, a⟩ := x
    obtain ⟨other', b⟩ := y
    obtain ⟨rfl, hab⟩ : other = other' ∧ R a b := hxy
    by_cases heq : key = other
    · subst heq
      exact ⟨a, b, List.lookup_cons_self, List.lookup_cons_self, hab⟩
    · rw [lookup_cons_of_ne heq, lookup_cons_of_ne heq]
      rw [List.map_cons, List.mem_cons] at hkey
      exact ih (hkey.resolve_left heq)

/-- Parameters that are bound to related arguments, the last of one name counting: each of them has
related values. -/
theorem lookup_zip_reverse (h : List.Forall₂ R as bs) (hlen : keys.length ≤ as.length)
    (hkey : key ∈ keys) :
    ∃ a b, (keys.zip as).reverse.lookup key = some a ∧ (keys.zip bs).reverse.lookup key = some b ∧
      R a b := by
  refine lookup_of_forall₂ (List.rel_reverse (forall₂_zip_left keys h)) ?_
  rw [List.map_reverse, List.mem_reverse, List.map_fst_zip hlen]
  exact hkey

/-! ## Other keys -/

variable {κ' : Type} [BEq κ'] [LawfulBEq κ'] {f : κ → κ'}

/-- Keys that stand for one another, one for one, lead to related values. -/
theorem lookup_rel {K} (hunique : Relator.BiUnique K) {bindings'}
    (h : List.Forall₂ (fun x y => K x.1 y.1 ∧ R x.2 y.2) bindings bindings') {key' : κ'}
    (hkey : K key key') : Option.Rel R (bindings.lookup key) (bindings'.lookup key') := by
  induction h with
  | nil => exact .none
  | @cons x y _ _ hxy _ ih =>
    obtain ⟨other, a⟩ := x
    obtain ⟨other', b⟩ := y
    obtain ⟨hother, hab⟩ : K other other' ∧ R a b := hxy
    by_cases heq : key = other
    · subst heq
      cases hunique.2 hkey hother
      rw [List.lookup_cons_self, List.lookup_cons_self]
      exact .some hab
    · have heq' : key' ≠ other' := by
        rintro rfl
        exact heq (hunique.1 hkey hother)
      rw [lookup_cons_of_ne heq, lookup_cons_of_ne heq']
      exact ih

theorem lookup_map_key (hf : Function.Injective f) (key : κ) (bindings : List (κ × α)) :
    (bindings.map fun x => (f x.1, x.2)).lookup (f key) = bindings.lookup key := by
  induction bindings with
  | nil => rfl
  | cons binding rest ih =>
    obtain ⟨other, v⟩ := binding
    rw [List.map_cons]
    by_cases heq : key = other
    · simp [heq]
    · rw [lookup_cons_of_ne (hf.ne heq), lookup_cons_of_ne heq, ih]

/-- Parameters under other names are bound to the same arguments. -/
theorem lookup_zip_map_key (hf : Function.Injective f) (keys : List κ) (as : List α) (key : κ) :
    ((keys.map f).zip as).reverse.lookup (f key) = (keys.zip as).reverse.lookup key := by
  rw [List.zip_map_left, ← List.map_reverse]
  exact lookup_map_key hf key _

end Lamina
