import Mathlib.Data.List.Forall2
import Mathlib.Data.List.TakeWhile
import Lamina.Native.Run
import Lamina.Proofs.Machine.Alike

/-!
# Values in the native heap

A native program has an address where a run of the machine has a value. What cell must be found at
the address is said by `Represents`; as cells are never changed once they are shared, a value stays
represented while the heap grows.

A native computation follows a run if it ends as the run does: with an address for the value and the
same text printed, or with the message for the error. Computations are put together with `bind`, and
so are the proofs about them.
-/

namespace Lamina.Native

open Lamina.Flat (Callee)
open Lamina.Machine (Value RunM RunError State)

variable {α β γ δ : Type} {w : World Callee} {a : Address} {v : Value}

/-- One thing after another: what the second does depends on how the first ends. -/
theorem CodeM.bind_apply (x : CodeM α) (f : α → CodeM β) (w : World Callee) :
    (x >>= f) w =
      match x w with
      | (.ok a, w') => f a w'
      | (.error e, w') => (.error e, w') := by
  simp only [bind, ExceptT.bind, ExceptT.mk, StateT.bind]
  rcases x w with ⟨_ | _, w'⟩ <;> rfl

/-! ## Representation -/

/-- `w'` has the cells of `w`, and maybe more. -/
structure World.Extends (w w' : World Callee) : Prop where
  cell : ∀ {a : Address} {cell : Cell Callee},
    w.cells[a]? = some cell → w'.cells[a]? = some cell

namespace World.Extends

variable {w w' w'' : World Callee}

theorem refl (w : World Callee) : w.Extends w := ⟨id⟩

theorem trans (h : w.Extends w') (h' : w'.Extends w'') : w.Extends w'' :=
  ⟨fun hcell => h'.cell (h.cell hcell)⟩

theorem push (w : World Callee) (cell : Cell Callee) :
    w.Extends { w with cells := w.cells.push cell } := by
  refine ⟨fun {a old} hold => ?_⟩
  have hlt : a < w.cells.size := (Array.getElem?_eq_some_iff.mp hold).1
  rw [Array.getElem?_push, if_neg (Nat.ne_of_lt hlt)]
  exact hold

end World.Extends

mutual

/-- The cell at an address represents a value. Of a text nothing may be hidden behind a zero
character. -/
inductive Represents (w : World Callee) : Value → Address → Prop
  | int {a n} (hcell : w.cells[a]? = some (.int n)) : Represents w (.int n) a
  | str {a text} (hcell : w.cells[a]? = some (.str text)) (hvisible : visible text = text) :
      Represents w (.str text) a
  | con {a tag} (hcell : w.cells[a]? = some (.con tag)) : Represents w (.con tag []) a
  | closure {a callee arity args slots}
      (hcell : w.cells[a]? = some (.closure callee arity args.length slots))
      (hsize : slots.size = arity) (hargs : Supplied w args slots.toList) :
      Represents w (.closure callee arity args) a

/-- The first places of an array hold the arguments of a closure. -/
inductive Supplied (w : World Callee) : List Value → List (Option Address) → Prop
  | nil (slots : List (Option Address)) : Supplied w [] slots
  | cons {v a args slots} (harg : Represents w v a) (hargs : Supplied w args slots) :
      Supplied w (v :: args) (some a :: slots)

end

mutual

theorem Represents.mono {w w'} (hext : w.Extends w') {v a} :
    Represents w v a → Represents w' v a
  | .int hcell => .int (hext.cell hcell)
  | .str hcell hvisible => .str (hext.cell hcell) hvisible
  | .con hcell => .con (hext.cell hcell)
  | .closure hcell hsize hargs => .closure (hext.cell hcell) hsize (hargs.mono hext)

theorem Supplied.mono {w w'} (hext : w.Extends w') {args slots} :
    Supplied w args slots → Supplied w' args slots
  | .nil slots => .nil slots
  | .cons harg hargs => .cons (harg.mono hext) (hargs.mono hext)

end

theorem load_of_cell {cell} (h : w.cells[a]? = some cell) : load a w = (.ok cell, w) := by
  have hget : (get : CodeM (World Callee)) w = (.ok w, w) := rfl
  rw [load, CodeM.bind_apply, hget]
  simp only [h]
  rfl

/-- A value is printed as its cell is. -/
theorem Represents.text_eq (h : Represents w v a) :
    ∃ cell, w.cells[a]? = some cell ∧ cell.text = v.text := by
  cases h with
  | str hcell hvisible => exact ⟨_, hcell, hvisible⟩
  | int hcell | con hcell | closure hcell => exact ⟨_, hcell, rfl⟩

/-- A text without a zero character is seen whole. -/
theorem visible_eq {text : String} (h : '\x00' ∉ text.toList) : visible text = text := by
  have hall : text.toList.takeWhile (· ≠ '\x00') = text.toList := by
    rw [List.takeWhile_eq_self_iff]
    intro c hc
    exact decide_eq_true fun heq => h (heq ▸ hc)
  rw [visible, hall, String.ofList_toList]

/-! ## Following a run -/

/-- What a native program says about an error of a run. It has nothing to say about calls that nest
too deep for the run, and about errors that no compiled program meets. -/
def Fatal.of? : RunError → Option Fatal
  | .notAClosure found => some (.notAClosure found)
  | .unsupportedArity arity => some (.unsupportedArity arity)
  | .divisionByZero => some .divisionByZero
  | .typeMismatch operation expected found => some (.typeMismatch operation expected found)
  | _ => none

theorem Fatal.report_of? {e f} (h : Fatal.of? e = some f) :
    f.report = "runtime error: " ++ e.message ++ "\n" := by
  have hmessage : f.message = e.message := by cases e <;> cases h <;> rfl
  exact congrArg (fun message => "runtime error: " ++ message ++ "\n") hmessage

/-- How a run may end, and how a native computation that starts with the memory `w` may end then.
The native stack may be exhausted only if it is `short`. -/
inductive Matches (short : Prop) (w : World Callee) (R : World Callee → α → β → Prop) :
    Except RunError α × State → Except Fatal β × World Callee → Prop
  | done {a b st w'} (hout : st.output = w'.stdout) (hext : w.Extends w') (h : R w' a b) :
      Matches short w R (.ok a, st) (.ok b, w')
  | failed {e f st w'} (hout : st.output = w'.stdout) (h : Fatal.of? e = some f) :
      Matches short w R (.error e, st) (.error f, w')
  | unsaid {e st native} (h : Fatal.of? e = none) : Matches short w R (.error e, st) native
  | exhausted {run w'} (h : short) : Matches short w R run (.error .stackExhausted, w')

theorem Matches.of_extends {short w'} {R : World Callee → α → β → Prop} {run native}
    (h : Matches short w' R run native) (hext : w.Extends w') : Matches short w R run native := by
  cases h with
  | done hout hext' hab => exact .done hout (hext.trans hext') hab
  | failed hout he => exact .failed hout he
  | unsaid he => exact .unsaid he
  | exhausted hshort => exact .exhausted hshort

/-- From the memory `w`, the native computation ends as the run does. -/
def Follows (short : Prop) (w : World Callee) (R : World Callee → α → β → Prop) (x : RunM α)
    (y : CodeM β) : Prop :=
  ∀ st : State, st.output = w.stdout → Matches short w R (x st) (y w)

namespace Follows

variable {short : Prop} {w : World Callee} {R : World Callee → α → β → Prop}
  {S : World Callee → γ → δ → Prop} {x : RunM α} {e : RunError} {y : CodeM β} {cell : Cell Callee}

theorem pure {a : α} {b : β} (h : R w a b) : Follows short w R (Pure.pure a) (Pure.pure b) :=
  fun _ hout => .done hout (.refl w) h

theorem throw {f : Fatal} (h : Fatal.of? e = some f) :
    Follows short w R (throw e : RunM α) (throw f : CodeM β) := fun _ hout => .failed hout h

theorem of_unsaid (h : Fatal.of? e = none) (y : CodeM β) :
    Follows short w R (MonadExcept.throw e : RunM α) y := fun _ _ => .unsaid h

theorem bind {f g} (h : Follows short w R x y)
    (hnext : ∀ {w' a b}, w.Extends w' → R w' a b →
      Follows short w' S (f a) (g b)) : Follows short w S (x >>= f) (y >>= g) := by
  intro st hout
  rw [Machine.RunM.bind_apply, CodeM.bind_apply]
  have hst := h st hout
  generalize x st = run at hst ⊢
  generalize y w = native at hst ⊢
  cases hst with
  | done hout' hext hab =>
    -- the second computation starts from the larger heap
    exact (hnext hext hab _ hout').of_extends hext
  | failed hout' he => exact .failed hout' he
  | unsaid he => exact .unsaid he
  | exhausted hshort => exact .exhausted hshort

theorem mono {R'} (h : Follows short w R x y)
    (himp : ∀ {w' a b}, w.Extends w' → R w' a b → R' w' a b) :
    Follows short w R' x y := by
  intro st hout
  have hst := h st hout
  generalize x st = run at hst ⊢
  generalize y w = native at hst ⊢
  cases hst with
  | done hout' hext hab => exact .done hout' hext (himp hext hab)
  | failed hout' he => exact .failed hout' he
  | unsaid he => exact .unsaid he
  | exhausted hshort => exact .exhausted hshort

/-- Reading a cell. -/
theorem load_bind {k} (hcell : w.cells[a]? = some cell) (h : Follows short w R x (k cell)) :
    Follows short w R x (load a >>= k) := by
  intro st hout
  rw [CodeM.bind_apply, load_of_cell hcell]
  exact h st hout

/-- Making a cell for what the run has already. -/
theorem alloc {x : α} {R}
    (h : ∀ w' : World Callee, w'.cells[w.cells.size]? = some cell → R w' x w.cells.size) :
    Follows short w R (Pure.pure x) (Native.alloc cell) := by
  intro st hout
  refine .done hout (.push w cell) (h _ ?_)
  exact Array.getElem?_push_size

end Follows

end Lamina.Native
