import Lamina.Proofs.Machine.Alike
import Lamina.Proofs.Machine.Intrinsic

/-!
# Reference evaluations

What the reference evaluators, of syntax trees and of core graphs, have in common. An evaluation
writes text, may fail, and may not finish within the bounds it was given. A function is a closure,
whatever that is, and is called once it has all its arguments. Of two evaluations it can be said
that they agree; of an evaluation and a run of a program, that the run ends as the evaluation does,
if that finishes.
-/

namespace Lamina.Reference

open Lamina.Machine (RunError RunM State callIntrinsic)

variable {α β γ δ : Type}

/-- An evaluation: from the text written before to the text written after it and an answer or an
error, or to nothing if it does not finish. -/
abbrev EvalM := ExceptT RunError (StateT String Option)

namespace EvalM

/-- The evaluation that does not finish. -/
def unfinished : EvalM α := fun _ => none

/-- Evaluating one thing after another: what the second does depends on how the first ends. -/
theorem bind_apply (x : EvalM α) (f : α → EvalM β) (out : String) :
    (x >>= f) out =
      match x out with
      | none => none
      | some (.ok a, out') => f a out'
      | some (.error e, out') => some (.error e, out') := by
  show (x out).bind _ = _
  rcases x out with _ | ⟨_ | _, _⟩ <;> rfl

end EvalM

/-- The answer of an evaluation that starts with no text, with the text it writes, unless it fails.
-/
def EvalM.answer? (x : EvalM α) : Option (α × String) := do
  let (result, out) ← x ""
  return (← result.toOption, out)

theorem EvalM.eq_of_answer? {x : EvalM α} {a out} (h : x.answer? = some (a, out)) :
    x "" = some (.ok a, out) := by
  unfold answer? at h
  rcases hx : x "" with _ | ⟨_ | b, out'⟩ <;> rw [hx] at h <;> cases h
  rfl

/-! ## Values -/

/-- A value of an evaluation; `γ` is what a function of the program is. -/
inductive Value (γ : Type)
  | int (n : Int64)
  | str (text : String)
  | con (name : String)
  /-- An intrinsic and the arguments it has so far. -/
  | prim (op : Intrinsic) (args : List (Value γ))
  /-- A function and the arguments it has so far. -/
  | closure (code : γ) (args : List (Value γ))

namespace Value

variable {v : Value γ}

/-- The value of a constructor. Truth values are integers. -/
def ofConstructor (name : String) : Value γ :=
  if name = "True" then .int 1
  else if name = "False" then .int 0
  else .con name

/-- The number that a value is, if it is one. -/
def int? : Value γ → Option Int64
  | int n => some n
  | _ => none

/-- The name of the constructor that a value is, if it is one. -/
def con? : Value γ → Option String
  | con name => some name
  | _ => none

theorem eq_int_of_int? {n : Int64} (h : v.int? = some n) : v = .int n := by
  cases v with
  | int => exact congrArg int (Option.some.inj h)
  | _ => cases h

theorem eq_con_of_con? {name : String} (h : v.con? = some name) : v = .con name := by
  cases v with
  | con => exact congrArg con (Option.some.inj h)
  | _ => cases h

/-- What an intrinsic sees of a value: the number of a constructor, and of a function no more than
that it is one. -/
def view (number : String → Nat) : Value γ → Machine.Value
  | int n => .int n
  | str text => .str text
  | con name => .con (number name) []
  | prim op _ => .closure (.intrinsic op) op.arity []
  | closure _ _ => .closure (.function 0) 0 []

/-- The value that an intrinsic answers with. -/
def ofAnswer : Machine.Value → Value γ
  | .int n => .int n
  | .str text => .str text
  | _ => .con "()"

end Value

/-- Calls an intrinsic and keeps what it writes. -/
def callPrim (number : String → Nat) (op : Intrinsic) (args : List (Value γ)) : EvalM (Value γ) :=
  match callIntrinsic op (args.map (·.view number)) with
  | .error e => throw e
  | .ok (v, text) => do
    modify fun out => out ++ text
    return .ofAnswer v

/-- Is a condition met? Only integers are conditions. -/
def condition (number : String → Nat) : Value γ → EvalM Bool
  | .int n => return n != 0
  | other => throw (.typeMismatch "if" "int" (other.view number).kind)

/-- Applies a value to one argument; `call` carries out the call of a function that has as many
arguments as it has parameters. -/
def apply (number : String → Nat) (arity : γ → Nat) (call : γ → List (Value γ) → EvalM (Value γ))
    (func arg : Value γ) : EvalM (Value γ) :=
  match func with
  | .closure code args =>
    let args := args ++ [arg]
    if args.length < arity code then return .closure code args else call code args
  | .prim op args =>
    let args := args ++ [arg]
    if args.length < op.arity then return .prim op args else callPrim number op args
  | other => throw (.notAClosure (other.view number).kind)

/-- Calls that may nest `nest` deep: none at all if that is nothing, and else such that inside a
call one level less is left. -/
def within (nest : Nat) (call : Nat → γ → List (Value γ) → EvalM (Value γ)) (code : γ)
    (args : List (Value γ)) : EvalM (Value γ) :=
  match nest with
  | 0 => EvalM.unfinished
  | nest + 1 => call nest code args

/-! ## Evaluations that agree -/

/-- Neither of two evaluations finishes, or both fail with one error, or both have answers that `R`
relates; and they write the same text. -/
def Agree (R : α → β → Prop) (x : EvalM α) (y : EvalM β) : Prop :=
  ∀ out, match x out, y out with
    | none, none => True
    | some (.ok a, out₁), some (.ok b, out₂) => out₁ = out₂ ∧ R a b
    | some (.error e₁, out₁), some (.error e₂, out₂) => out₁ = out₂ ∧ e₁ = e₂
    | _, _ => False

namespace Agree

variable {R : α → β → Prop} {x : EvalM α} {y : EvalM β}

theorem unfinished (R : α → β → Prop) : Agree R EvalM.unfinished EvalM.unfinished :=
  fun _ => trivial

theorem pure {a b} (h : R a b) : Agree R (Pure.pure a) (Pure.pure b) := fun _ => ⟨rfl, h⟩

theorem throw (R : α → β → Prop) (e : RunError) :
    Agree R (throw e : EvalM α) (throw e : EvalM β) := fun _ => ⟨rfl, rfl⟩

theorem refl (x : EvalM α) : Agree Eq x x := by
  intro out
  rcases x out with _ | ⟨_ | _, _⟩
  · trivial
  · exact ⟨rfl, rfl⟩
  · exact ⟨rfl, rfl⟩

theorem mono {S} (h : Agree R x y) (himp : ∀ a b, R a b → S a b) : Agree S x y := by
  intro out
  have hout := h out
  rcases hx : x out with _ | ⟨e | a, out₁⟩ <;> rcases hy : y out with _ | ⟨e' | b, out₂⟩ <;>
    rw [hx, hy] at hout
  case some.ok.some.ok => exact ⟨hout.1, himp a b hout.2⟩
  all_goals exact hout

theorem bind {S : γ → δ → Prop} {f g} (h : Agree R x y) (hnext : ∀ a b, R a b → Agree S (f a) (g b))
    :
    Agree S (x >>= f) (y >>= g) := by
  intro out
  rw [EvalM.bind_apply, EvalM.bind_apply]
  have hout := h out
  rcases hx : x out with _ | ⟨e | a, out₁⟩ <;> rcases hy : y out with _ | ⟨e' | b, out₂⟩ <;>
    rw [hx, hy] at hout
  case none.none => trivial
  case some.error.some.error => exact hout
  case some.ok.some.ok =>
    obtain ⟨rfl, hab⟩ := hout
    exact hnext a b hab out₁
  all_goals exact hout.elim

end Agree

/-! ## Values that match -/

/-- Values of two evaluations that are the same but for their functions, which `R` relates. -/
inductive Matches (arity : γ → Nat) (R : γ → δ → Prop) : Value γ → Value δ → Prop
  | int (n : Int64) : Matches arity R (.int n) (.int n)
  | str (text : String) : Matches arity R (.str text) (.str text)
  | con (name : String) : Matches arity R (.con name) (.con name)
  | prim (op : Intrinsic) {args args'} (hargs : List.Forall₂ (Matches arity R) args args') :
      Matches arity R (.prim op args) (.prim op args')
  | closure {c d args args'} (hcode : R c d) (hlen : args.length < arity c)
      (hargs : List.Forall₂ (Matches arity R) args args') :
      Matches arity R (.closure c args) (.closure d args')

/-- What can be seen of two values: the same integer, string or constructor, and a function for a
function, with as many parameters and arguments. -/
def Mirrors (arity : γ → Nat) (arity' : δ → Nat) : Value γ → Value δ → Prop
  | .int n, w => w = .int n
  | .str text, w => w = .str text
  | .con name, w => w = .con name
  | .prim op args, w => ∃ args', w = .prim op args' ∧ args'.length = args.length
  | .closure c args, w => ∃ d args', w = .closure d args' ∧ arity' d = arity c ∧
      args'.length = args.length

section

variable {arity : γ → Nat} {arity' : δ → Nat} {R : γ → δ → Prop} {v : Value γ} {w : Value δ}
  {args : List (Value γ)} {args' : List (Value δ)}

theorem Matches.mirrors (harity : ∀ {c d}, R c d → arity c = arity' d) (h : Matches arity R v w) :
    Mirrors arity arity' v w := by
  cases h with
  | int n => rfl
  | str text => rfl
  | con name => rfl
  | prim op hargs => exact ⟨_, rfl, hargs.length_eq.symm⟩
  | closure hcode _ hargs => exact ⟨_, _, rfl, (harity hcode).symm, hargs.length_eq.symm⟩

theorem matches_constructor (name : String) :
    Matches arity R (.ofConstructor name) (.ofConstructor name) := by
  unfold Value.ofConstructor
  split
  · exact .int 1
  · split
    · exact .int 0
    · exact .con name

theorem matches_answer (v : Machine.Value) : Matches arity R (.ofAnswer v) (.ofAnswer v) := by
  cases v with
  | int n => exact .int n
  | str text => exact .str text
  | _ => exact .con "()"

/-- An intrinsic sees the same of two values that match. -/
theorem Matches.similar (h : Matches arity R v w) (number : String → Nat) :
    (v.view number).Similar (w.view number) := by
  cases h with
  | int n => exact .int n
  | str text => exact .str text
  | con name => exact .con _ [] []
  | prim op _ => exact .closure _ _ _ _ _ _
  | closure _ _ _ => exact .closure _ _ _ _ _ _

theorem callPrim_agree (number : String → Nat) (op : Intrinsic)
    (h : List.Forall₂ (Matches arity R) args args') :
    Agree (Matches arity R) (callPrim number op args) (callPrim number op args') := by
  have hsimilar : callIntrinsic op (args.map (·.view number)) =
      callIntrinsic op (args'.map (·.view number)) := by
    apply Machine.callIntrinsic_similar
    rw [List.forall₂_map_left_iff, List.forall₂_map_right_iff]
    exact h.imp fun _ _ h => h.similar number
  unfold callPrim
  rw [hsimilar]
  cases callIntrinsic op (args'.map (·.view number)) with
  | error e => exact .throw _ e
  | ok answer => exact fun out => ⟨rfl, matches_answer answer.1⟩

theorem condition_agree (number : String → Nat) (h : Matches arity R v w) :
    Agree Eq (condition number v) (condition number w) := by
  cases h with
  | int n => exact .refl _
  | _ => exact .throw _ _

theorem within_agree {S call call' c d} (nest : Nat)
    (h : ∀ nest, Agree S (call nest c args) (call' nest d args')) :
    Agree S (within nest call c args) (within nest call' d args') := by
  cases nest with
  | zero => exact .unfinished S
  | succ nest => exact h nest

/-- Applications agree if calls of functions that have all their arguments do. -/
theorem apply_agree (number : String → Nat) {call call'}
    (harity : ∀ {c d}, R c d → arity c = arity' d)
    (hcall : ∀ {c d args args'}, R c d → args.length = arity c →
      List.Forall₂ (Matches arity R) args args' →
      Agree (Matches arity R) (call c args) (call' d args')) {func arg func' arg'}
    (hfunc : Matches arity R func func') (harg : Matches arity R arg arg') :
    Agree (Matches arity R) (apply number arity call func arg)
      (apply number arity' call' func' arg') := by
  cases hfunc with
  | int n => exact .throw _ _
  | str text => exact .throw _ _
  | con name => exact .throw _ _
  | prim op hargs =>
    have hall := List.rel_append hargs (.cons harg .nil)
    simp only [apply, ← hall.length_eq]
    split
    · exact .pure (.prim op hall)
    · exact callPrim_agree number op hall
  -- one argument more: there are still too few of them, or just enough for a call
  | @closure c d args args' hcode hlen hargs =>
    have hall := List.rel_append hargs (.cons harg .nil)
    simp only [apply, ← hall.length_eq, ← harity hcode]
    split
    · exact .pure (.closure hcode ‹_› hall)
    · refine hcall hcode ?_ hall
      rw [List.length_append, List.length_singleton] at *
      omega

end

/-! ## Runs that end as an evaluation does -/

/-- If the evaluation finishes, the run ends in the same way: with the same text written, and with
the same error or an answer that `R` relates. -/
def Follows (R : α → β → Prop) (x : EvalM α) (y : RunM β) : Prop :=
  ∀ st, match x st.output with
    | none => True
    | some (.ok a, out) => ∃ b st', y st = (.ok b, st') ∧ st'.output = out ∧ R a b
    | some (.error e, out) => ∃ st', y st = (.error e, st') ∧ st'.output = out

namespace Follows

variable {R : α → β → Prop} {x : EvalM α}

theorem unfinished (R : α → β → Prop) (y : RunM β) : Follows R EvalM.unfinished y :=
  fun _ => trivial

theorem pure {a : α} {b : β} (h : R a b) :
    Follows R (Pure.pure a) (Pure.pure b) := fun st => ⟨b, st, rfl, rfl, h⟩

theorem throw (R : α → β → Prop) (e : RunError) :
    Follows R (throw e : EvalM α) (throw e : RunM β) := fun st => ⟨st, rfl, rfl⟩

theorem bind {S : γ → δ → Prop} {y f g} (h : Follows R x y)
    (hnext : ∀ a b, R a b → Follows S (f a) (g b)) : Follows S (x >>= f) (y >>= g) := by
  intro st
  rw [EvalM.bind_apply, Machine.RunM.bind_apply]
  have hst := h st
  rcases hx : x st.output with _ | ⟨e | a, out⟩ <;> rw [hx] at hst
  · trivial
  · obtain ⟨st', hy, hout⟩ := hst
    rw [hy]
    exact ⟨st', rfl, hout⟩
  · obtain ⟨b, st', hy, rfl, hab⟩ := hst
    rw [hy]
    exact hnext a b hab st'

/-- A run may count its steps on the way. -/
theorem modify_bind {f y} (hf : ∀ st, (f st).output = st.output) (h : Follows R x (y ⟨⟩)) :
    Follows R x (modify f >>= y) := by
  intro st
  -- the evaluation starts from the text written so far, which the change leaves alone
  have hst := h (f st)
  rw [hf] at hst
  exact hst

end Follows

end Lamina.Reference
