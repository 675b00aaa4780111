import Lamina.Machine.Run

/-!
# How runs end

Two runs are alike if from every state they both fail with one error or both end with related
answers, and leave the same state behind. Of one run it can be said how it ends: with which answers,
and with which errors. Runs are put together with `bind`, and so are the proofs about them.
-/

namespace Lamina

theorem Flat.walkInstrs_append (first second : List Flat.Instr) :
    Flat.walkInstrs (first ++ second) = Flat.walkInstrs first ++ Flat.walkInstrs second := by
  induction first with
  | nil => rfl
  | cons i rest ih =>
    rw [List.cons_append, Flat.walkInstrs, Flat.walkInstrs, ih, List.append_assoc]

namespace Machine

open Lamina.Flat (Var Callee Instr Program)

variable {α β γ δ : Type}

/-- From every state both runs fail alike, or both end with answers that `R` relates; the state
after them is the same. -/
def Alike (R : α → β → Prop) (x : RunM α) (y : RunM β) : Prop :=
  ∀ st, match x st, y st with
    | (.ok a, st₁), (.ok b, st₂) => st₁ = st₂ ∧ R a b
    | (.error e₁, st₁), (.error e₂, st₂) => st₁ = st₂ ∧ e₁ = e₂
    | _, _ => False

/-- Running one thing after another: what the second does depends on how the first ends. -/
theorem RunM.bind_apply (x : RunM α) (f : α → RunM β) (st : State) :
    (x >>= f) st =
      match x st with
      | (.ok a, st') => f a st'
      | (.error e, st') => (.error e, st') := by
  simp only [bind, ExceptT.bind, ExceptT.mk, StateT.bind]
  rcases x st with ⟨_ | _, st'⟩ <;> rfl

namespace Alike

variable {R : α → β → Prop} {x : RunM α} {y : RunM β}

theorem pure {a b} (h : R a b) : Alike R (Pure.pure a) (Pure.pure b) := fun _ => ⟨rfl, h⟩

theorem throw (R : α → β → Prop) (e : RunError) :
    Alike R (throw e : RunM α) (throw e : RunM β) := fun _ => ⟨rfl, rfl⟩

theorem refl (x : RunM α) : Alike Eq x x := by
  intro st
  rcases x st with ⟨_ | _, _⟩ <;> exact ⟨rfl, rfl⟩

theorem mono {S} (h : Alike R x y) (himp : ∀ a b, R a b → S a b) : Alike S x y := by
  intro st
  have hst := h st
  rcases hx : x st with ⟨e | a, st₁⟩ <;> rcases hy : y st with ⟨e' | b, st₂⟩ <;>
    rw [hx, hy] at hst
  · exact hst
  · exact hst
  · exact hst
  · exact ⟨hst.1, himp a b hst.2⟩

theorem bind {S : γ → δ → Prop} {f g} (h : Alike R x y) (hnext : ∀ a b, R a b → Alike S (f a) (g b))
    :
    Alike S (x >>= f) (y >>= g) := by
  intro st
  rw [RunM.bind_apply, RunM.bind_apply]
  have hst := h st
  -- if the first runs end alike, the second ones start from one state
  rcases hx : x st with ⟨e | a, st₁⟩ <;> rcases hy : y st with ⟨e' | b, st₂⟩ <;>
    rw [hx, hy] at hst
  · exact hst
  · exact hst.elim
  · exact hst.elim
  · obtain ⟨rfl, hab⟩ := hst
    exact hnext a b hab st₁

/-- Runs that are alike with equal answers are equal. -/
theorem eq {y : RunM α} (h : Alike Eq x y) : x = y := by
  funext st
  have hst := h st
  rcases hx : x st with ⟨e | a, st₁⟩ <;> rcases hy : y st with ⟨e' | b, st₂⟩ <;>
    rw [hx, hy] at hst
  · obtain ⟨rfl, rfl⟩ := hst
    rfl
  · exact hst.elim
  · exact hst.elim
  · obtain ⟨rfl, rfl⟩ := hst
    rfl

end Alike

/-- From every state the run fails with an error in `E`, or ends with an answer in `P`. -/
def Ends (P : α → Prop) (E : RunError → Prop) (x : RunM α) : Prop :=
  ∀ st, match (x st).1 with
    | .ok a => P a
    | .error e => E e

namespace Ends

variable {P : α → Prop} {Q : β → Prop} {E : RunError → Prop}

theorem pure {a : α} (h : P a) : Ends P E (Pure.pure a) := fun _ => h

theorem throw {e : RunError} (h : E e) : Ends P E (throw e) := fun _ => h

theorem bind {x f} (h : Ends P E x) (hnext : ∀ a, P a → Ends Q E (f a)) : Ends Q E (x >>= f) := by
  intro st
  rw [RunM.bind_apply]
  have hst := h st
  rcases hx : x st with ⟨e | a, st'⟩ <;> rw [hx] at hst
  · exact hst
  · exact hnext a hst st'

/-- A change of the state has no say in how a run ends. -/
theorem modify_bind {f x} (h : Ends P E (x ⟨⟩)) : Ends P E (modify f >>= x) := fun st => h (f st)

end Ends

/-! ## Frames and instructions -/

theorem Frame.get_of_lookup {frame : Frame} {x v} (h : frame.lookup x = some v) :
    frame.get x = pure v := by
  unfold Frame.get
  rw [h]

theorem execAll_append (p : Program) (invoke : Callee → List Value → RunM Value)
    (first second : List Instr) (frame : Frame) :
    execAll p invoke (first ++ second) frame =
      execAll p invoke first frame >>= execAll p invoke second := by
  induction first generalizing frame with
  | nil => simp [execAll]
  | cons i rest ih => simp [execAll, ih]

theorem execAll_singleton (p : Program) (invoke : Callee → List Value → RunM Value)
    (i : Instr) (frame : Frame) : execAll p invoke [i] frame = exec p invoke i frame := by
  simp [execAll]

end Machine

end Lamina
