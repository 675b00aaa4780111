import Mathlib.Data.List.Forall2
import Lamina.Machine.Primitive

/-!
# How intrinsics end

An intrinsic with all its arguments answers with an integer, a string or the unit value, or
complains about the type of an argument or a zero divisor. It does not look into closures, so it
cannot tell one from another.
-/

namespace Lamina.Machine

variable {args : List Value}

/-- The values that an intrinsic can answer with. -/
def Value.Plain : Value → Prop
  | .int _ => True
  | .str _ => True
  | v => v = .unit

/-- The errors that an intrinsic with all its arguments can end with. -/
def Primitive.Complaint (op : Intrinsic) (e : RunError) : Prop :=
  e = .divisionByZero ∨ ∃ expected found, e = .typeMismatch op.name expected found

/-- Values that no intrinsic can tell apart. -/
inductive Value.Similar : Value → Value → Prop
  | int (n : Int64) : Similar (.int n) (.int n)
  | str (text : String) : Similar (.str text) (.str text)
  | con (tag : Nat) (fields fields' : List Value) : Similar (.con tag fields) (.con tag fields')
  | closure (callee callee' : Flat.Callee) (arity arity' : Nat) (args args' : List Value) :
      Similar (.closure callee arity args) (.closure callee' arity' args')

namespace Primitive

/-! ## Answers and complaints -/

variable {α β : Type} {op : Intrinsic} {a b : Value} {f : Int64 → Int64 → Int64}

/-- The intrinsic `op` answers with something in `P`, or complains. -/
def Ends (op : Intrinsic) (P : α → Prop) : Except RunError α → Prop
  | .ok answer => P answer
  | .error e => Complaint op e

theorem Ends.bind {P Q x} {f : α → Except RunError β} (h : Ends op P x)
    (hnext : ∀ answer, P answer → Ends op Q (f answer)) : Ends op Q (x >>= f) := by
  cases x with
  | error e => exact h
  | ok answer => exact hnext answer h

theorem int_ends : Ends op (fun _ => True) (int op a) := by
  unfold int
  split
  · trivial
  · exact .inr ⟨_, _, rfl⟩

theorem equal_ends : Ends op (fun _ => True) (equal op a b) := by
  unfold equal
  split
  case h_1 | h_2 | h_3 => trivial
  all_goals exact .inr ⟨_, _, rfl⟩

theorem arith_ends : Ends op Value.Plain (arith op f a b) :=
  int_ends.bind fun _ _ => int_ends.bind fun _ _ => trivial

theorem divide_ends : Ends op Value.Plain (divide op f a b) := by
  refine int_ends.bind fun x _ => int_ends.bind fun y _ => ?_
  split
  · exact .inl rfl
  · trivial

theorem compare_ends {f} : Ends op Value.Plain (compare op f a b) :=
  int_ends.bind fun _ _ => int_ends.bind fun _ _ => trivial

theorem binary_ends : Ends op Value.Plain (binary op a b) := by
  unfold binary
  -- arithmetic, division, equality, and then the comparisons of integers
  split
  case h_1 | h_2 | h_3 => exact arith_ends
  case h_4 | h_5 => exact divide_ends
  case h_6 | h_7 => exact equal_ends.bind fun _ _ => trivial
  all_goals exact compare_ends

theorem unary_ends : Ends op (fun answer => answer.1.Plain) (unary op a) := by
  unfold unary
  split
  · exact int_ends.bind fun _ _ => trivial
  · trivial
  · split
    · exact rfl
    · exact .inr ⟨_, _, rfl⟩

end Primitive

theorem arity_pos (op : Intrinsic) : 0 < op.arity := by
  cases op <;> decide

theorem arity_le_maxArity (op : Intrinsic) : op.arity ≤ Flat.maxArity := by
  cases op <;> decide

/-- An intrinsic with all its arguments finds nothing wrong with their number. -/
theorem callIntrinsic_ends {op : Intrinsic} (hlen : args.length = op.arity) :
    Primitive.Ends op (fun answer => answer.1.Plain) (callIntrinsic op args) := by
  unfold callIntrinsic
  rw [if_pos hlen]
  split
  · exact Primitive.unary_ends
  · exact Primitive.binary_ends.bind fun _ h => h
  · rename_i hone htwo
    -- no intrinsic takes no arguments or more than two
    exfalso
    rcases args with _ | ⟨a, _ | ⟨b, _ | ⟨c, rest⟩⟩⟩
    · exact absurd hlen (Nat.ne_of_lt (arity_pos op))
    · exact hone a rfl
    · exact htwo a b rfl
    · have harity : op.arity ≤ 2 := by cases op <;> decide
      simp only [List.length_cons] at hlen
      omega

/-- With any arguments, an intrinsic may also complain about their number. -/
theorem callIntrinsic_cases (op : Intrinsic) (args : List Value) :
    (∃ answer, callIntrinsic op args = .ok answer ∧ answer.1.Plain) ∨
      ∃ e, callIntrinsic op args = .error e ∧
        (Primitive.Complaint op e ∨ ∃ expected found, e = .arityMismatch expected found) := by
  by_cases hlen : args.length = op.arity
  · have hends := callIntrinsic_ends hlen
    cases hcall : callIntrinsic op args <;> rw [hcall] at hends
    · exact .inr ⟨_, rfl, .inl hends⟩
    · exact .inl ⟨_, rfl, hends⟩
  · refine .inr ⟨.arityMismatch op.arity args.length, ?_, .inr ⟨_, _, rfl⟩⟩
    unfold callIntrinsic
    rw [if_neg hlen]

/-! ## What intrinsics do not see -/

namespace Value.Similar

variable {a a' b b' : Value}

theorem text_eq (h : Similar a a') : a.text = a'.text := by
  cases h <;> rfl

theorem int_eq (op : Intrinsic) (h : Similar a a') : Primitive.int op a = Primitive.int op a' := by
  cases h <;> rfl

theorem equal_eq (op : Intrinsic) (ha : Similar a a') (hb : Similar b b') :
    Primitive.equal op a b = Primitive.equal op a' b' := by
  cases ha <;> cases hb <;> rfl

theorem unary_eq (op : Intrinsic) (h : Similar a a') :
    Primitive.unary op a = Primitive.unary op a' := by
  unfold Primitive.unary
  split
  · rw [h.int_eq]
  · rw [h.text_eq]
  · cases h <;> rfl

theorem binary_eq (op : Intrinsic) (ha : Similar a a') (hb : Similar b b') :
    Primitive.binary op a b = Primitive.binary op a' b' := by
  -- all that is done with an argument is to read it as an integer or to compare it
  unfold Primitive.binary Primitive.arith Primitive.divide Primitive.compare
  simp only [ha.int_eq, hb.int_eq, ha.equal_eq _ hb]

end Value.Similar

theorem callIntrinsic_similar (op : Intrinsic) {args'} (h : List.Forall₂ Value.Similar args args') :
    callIntrinsic op args = callIntrinsic op args' := by
  unfold callIntrinsic
  rw [h.length_eq]
  rcases h with _ | ⟨ha, _ | ⟨hb, _ | ⟨_, _⟩⟩⟩
  · rfl
  · simp only [ha.unary_eq op]
  · simp only [ha.binary_eq op hb]
  · rfl

end Lamina.Machine
