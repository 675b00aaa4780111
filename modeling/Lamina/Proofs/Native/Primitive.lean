import Lamina.Proofs.Machine.Intrinsic
import Lamina.Proofs.Native.Represents

/-!
# Native intrinsics follow those of the machine

The word arithmetic of a native program is that of the machine: unsigned words wrap as signed ones
do, and a divisor of minus one, which is handled apart, has the quotient and the remainder that it
should have. So an intrinsic that is called with the arguments it takes ends as on the machine
(`callIntrinsic_follows`).
-/

namespace Lamina.Native

open Lamina.Flat (Callee)
open Lamina.Machine (Value RunM RunError State runIntrinsic)

variable {op : Intrinsic} {f : Int64 → Int64 → Int64}

/-! ## Words -/

theorem Primitive.quotient_eq (x y : Int64) : quotient x y = x / y := by
  unfold quotient
  split
  · rename_i hy
    rw [hy, ← Int64.toInt_inj, Int64.toInt_div]
    show (0 - x).toInt = _
    rw [Int64.zero_sub, Int64.toInt_neg]
    congr 1
    show _ = x.toInt.tdiv (-1)
    rw [Int.tdiv_neg, Int.tdiv_one]
  · rfl

theorem Primitive.remainder_eq (x y : Int64) : remainder x y = x % y := by
  unfold remainder
  split
  · rename_i hy
    rw [hy, ← Int64.toInt_inj, Int64.toInt_mod]
    show 0 = x.toInt.tmod (-1)
    rw [Int.tmod_neg, Int.tmod_one]
  · rfl

/-! ## Reading arguments -/

/-- A run that only computes an answer. -/
def ofExcept {α : Type} (x : Except RunError α) : RunM α :=
  match x with
  | .ok a => pure a
  | .error e => throw e

theorem ofExcept_bind {α β : Type} (x : Except RunError α) (f : α → Except RunError β) :
    ofExcept (x >>= f) = ofExcept x >>= fun a => ofExcept (f a) := by
  cases x with
  | error e => rfl
  | ok a => exact (pure_bind a fun a => ofExcept (f a)).symm

variable {short : Prop} {w : World Callee} {v v' : Value} {a a' : Address}

theorem int_follows (op : Intrinsic) (h : Represents w v a) :
    Follows short w (fun _ => Eq) (ofExcept (Machine.Primitive.int op v)) (Primitive.int op a) := by
  cases h with
  | int hcell => exact .load_bind hcell (.pure rfl)
  | str hcell => exact .load_bind hcell (.throw rfl)
  | con hcell => exact .load_bind hcell (.throw rfl)
  | closure hcell => exact .load_bind hcell (.throw rfl)

/-- Only values of one kind are compared; the complaint is about a closure first, and else about the
second value. -/
theorem equal_follows (op : Intrinsic) (h : Represents w v a) (h' : Represents w v' a') :
    Follows short w (fun _ => Eq) (ofExcept (Machine.Primitive.equal op v v'))
      (Primitive.equal op a a') := by
  cases h with
  | int hcell =>
    cases h' with
    | int hcell' => exact .load_bind hcell (.load_bind hcell' (.pure rfl))
    | str hcell' | con hcell' | closure hcell' =>
      exact .load_bind hcell (.load_bind hcell' (.throw rfl))
  | str hcell hvisible =>
    cases h' with
    | str hcell' hvisible' =>
      refine .load_bind hcell (.load_bind hcell' (.pure ?_))
      rw [hvisible, hvisible']
    | int hcell' | con hcell' | closure hcell' =>
      exact .load_bind hcell (.load_bind hcell' (.throw rfl))
  | con hcell =>
    cases h' with
    | con hcell' => exact .load_bind hcell (.load_bind hcell' (.pure rfl))
    | int hcell' | str hcell' | closure hcell' =>
      exact .load_bind hcell (.load_bind hcell' (.throw rfl))
  | closure hcell =>
    cases h' with
    | int hcell' | str hcell' | con hcell' | closure hcell' =>
      exact .load_bind hcell (.load_bind hcell' (.throw rfl))

/-! ## Intrinsics of two arguments -/

theorem arith_follows (op : Intrinsic) {g}
    (hwords : ∀ x y, (g x.toUInt64 y.toUInt64).toInt64 = f x y) (h : Represents w v a)
    (h' : Represents w v' a') :
    Follows short w Represents (ofExcept (Machine.Primitive.arith op f v v'))
      (Primitive.arith op g a a') := by
  unfold Machine.Primitive.arith
  simp only [ofExcept_bind]
  refine (int_follows op h).bind ?_
  rintro w₁ x _ hext rfl
  refine (int_follows op (h'.mono hext)).bind ?_
  rintro w₂ y _ _ rfl
  rw [hwords]
  exact .alloc fun _ => .int

theorem divide_follows (op : Intrinsic) {g} (hwords : ∀ x y, g x y = f x y) (h : Represents w v a)
    (h' : Represents w v' a') :
    Follows short w Represents (ofExcept (Machine.Primitive.divide op f v v'))
      (Primitive.divide op g a a') := by
  unfold Machine.Primitive.divide
  simp only [ofExcept_bind]
  refine (int_follows op h).bind ?_
  rintro w₁ x _ hext rfl
  refine (int_follows op (h'.mono hext)).bind ?_
  rintro w₂ y _ _ rfl
  by_cases hy : y = 0
  · rw [if_pos hy, if_pos hy]
    exact .throw rfl
  · rw [if_neg hy, if_neg hy, hwords]
    exact .alloc fun _ => .int

theorem compare_follows (op : Intrinsic) (f : Int64 → Int64 → Bool) (h : Represents w v a)
    (h' : Represents w v' a') :
    Follows short w Represents (ofExcept (Machine.Primitive.compare op f v v'))
      (Primitive.compare op f a a') := by
  unfold Machine.Primitive.compare
  simp only [ofExcept_bind]
  refine (int_follows op h).bind ?_
  rintro w₁ x _ hext rfl
  refine (int_follows op (h'.mono hext)).bind ?_
  rintro w₂ y _ _ rfl
  exact .alloc fun _ => .int

theorem equality_follows (op : Intrinsic) (f : Bool → Bool) (h : Represents w v a)
    (h' : Represents w v' a') :
    Follows short w Represents
      (ofExcept (do return .ofBool (f (← Machine.Primitive.equal op v v'))))
      (do Primitive.allocBool (f (← Primitive.equal op a a'))) := by
  rw [ofExcept_bind]
  refine (equal_follows op h h').bind ?_
  rintro w₁ b _ _ rfl
  exact .alloc fun _ => .int

theorem binary_follows (harity : op.arity = 2) (h : Represents w v a) (h' : Represents w v' a')
    (rest : List Address) :
    Follows short w Represents (ofExcept (Machine.Primitive.binary op v v'))
      (callIntrinsic op (a :: a' :: rest)) := by
  cases op with
  | negate | showValue | putStrLn => cases harity
  | plus => exact arith_follows .plus (fun _ _ => rfl) h h'
  | minus => exact arith_follows .minus (fun _ _ => rfl) h h'
  | mult => exact arith_follows .mult (fun _ _ => rfl) h h'
  | div => exact divide_follows .div Primitive.quotient_eq h h'
  | mod => exact divide_follows .mod Primitive.remainder_eq h h'
  | eq => exact equality_follows .eq id h h'
  | neq => exact equality_follows .neq not h h'
  | lt => exact compare_follows .lt _ h h'
  | lte => exact compare_follows .lte _ h h'
  | gt => exact compare_follows .gt _ h h'
  | gte => exact compare_follows .gte _ h h'

/-! ## Intrinsics of one argument -/

theorem zero_not_mem_append {first second : String} (h : '\x00' ∉ first.toList)
    (h' : '\x00' ∉ second.toList) : '\x00' ∉ (first ++ second).toList := by
  rw [String.toList_append, List.mem_append]
  exact fun hor => hor.elim h h'

theorem zero_not_mem_digits (n : Nat) : '\x00' ∉ (toString n).toList := by
  intro hmem
  rw [show toString n = n.repr from rfl, Nat.toList_repr] at hmem
  exact absurd (Nat.isDigit_of_mem_toDigits (by decide) (by decide) hmem) (by decide)

theorem zero_not_mem_toString (n : Int) : '\x00' ∉ (toString n).toList := by
  cases n with
  | ofNat k => exact zero_not_mem_digits k
  | negSucc k => exact zero_not_mem_append (by decide) (zero_not_mem_digits (k + 1))

/-- What a value is printed as is seen whole. -/
theorem Represents.visible_text (h : Represents w v a) : visible v.text = v.text := by
  cases h with
  | int => exact visible_eq (zero_not_mem_toString _)
  | str _ hvisible => exact hvisible
  | con => exact visible_eq (zero_not_mem_append (zero_not_mem_append (by decide) (zero_not_mem_digits _))
      (by decide))
  | closure =>
    have hzero : '\x00' ∉ "<closure>".toList := by decide
    exact visible_eq hzero

theorem showValue_follows (h : Represents w v a) :
    Follows short w Represents (pure (.str v.text)) (Primitive.showValue a) := by
  have hvisible := h.visible_text
  cases h with
  | str hcell => exact .load_bind hcell (.pure (.str hcell hvisible))
  | int hcell | con hcell | closure hcell =>
    exact .load_bind hcell (.alloc fun _ hnew => .str hnew hvisible)

theorem putLine_follows (h : Represents w v a) :
    Follows short w Represents (runIntrinsic .putStrLn [v]) (Primitive.putLine .putStrLn a) := by
  cases h with
  | @str _ text hcell hvisible =>
    refine .load_bind hcell ?_
    -- the text is printed first, and the unit value allocated then
    intro st hout
    simp only [hvisible]
    refine .done ?_ ?_ (.con Array.getElem?_push_size)
    · exact congrArg (· ++ (text ++ "\n")) hout
    · exact ⟨(World.Extends.push w (.con 0)).cell⟩
  | int hcell | con hcell | closure hcell => exact .load_bind hcell (.throw rfl)

/-! ## All intrinsics -/

theorem runIntrinsic_one (harity : op.arity = 1) (v : Value) :
    runIntrinsic op [v] = ofExcept (Machine.Primitive.unary op v) >>= fun answer => do
      modify fun st => { st with output := st.output ++ answer.2 }
      return answer.1 := by
  have hlen : [v].length = op.arity := harity.symm
  unfold runIntrinsic Machine.callIntrinsic
  rw [if_pos hlen]
  simp only
  cases Machine.Primitive.unary op v <;> rfl

theorem modify_nothing (v : Value) :
    (do
      modify fun st : State => { st with output := st.output ++ "" }
      return v : RunM Value) = pure v := by
  funext st
  show (Except.ok v, { st with output := st.output ++ "" }) = (Except.ok v, st)
  rw [String.append_empty]

theorem runIntrinsic_two (harity : op.arity = 2) (v v' : Value) :
    runIntrinsic op [v, v'] = ofExcept (Machine.Primitive.binary op v v') := by
  have hlen : [v, v'].length = op.arity := harity.symm
  unfold runIntrinsic Machine.callIntrinsic
  rw [if_pos hlen]
  simp only
  cases Machine.Primitive.binary op v v' with
  | error e => rfl
  | ok answer => exact modify_nothing answer

theorem unary_follows (harity : op.arity = 1) (h : Represents w v a) (rest : List Address) :
    Follows short w Represents (runIntrinsic op [v]) (callIntrinsic op (a :: rest)) := by
  cases op with
  | negate =>
    rw [runIntrinsic_one harity, Machine.Primitive.unary, ofExcept_bind, bind_assoc]
    refine (int_follows .negate h).bind ?_
    rintro w' n _ _ rfl
    show Follows _ _ _ (do modify _; return _) _
    rw [modify_nothing]
    show Follows short w' Represents (pure (.int (-n))) (alloc (.int (0 - n)))
    rw [Int64.zero_sub]
    exact .alloc fun _ => .int
  | showValue =>
    rw [runIntrinsic_one harity]
    show Follows _ _ _ (do modify _; return _) _
    rw [modify_nothing]
    exact showValue_follows h
  | putStrLn => exact putLine_follows h
  | _ => cases harity

/-- A native intrinsic follows that of the machine: with the arguments it takes it ends in the same
way, and calling it with others is no error of a compiled program. -/
theorem callIntrinsic_follows (op : Intrinsic) {args addresses}
    (h : List.Forall₂ (Represents w) args addresses) :
    Follows short w Represents (runIntrinsic op args) (callIntrinsic op addresses) := by
  by_cases hlen : args.length = op.arity
  · rcases h with _ | ⟨h, _ | ⟨h', _ | ⟨_, _⟩⟩⟩
    · exact absurd hlen (Nat.ne_of_lt (Machine.arity_pos op))
    · exact unary_follows hlen.symm h []
    · rw [runIntrinsic_two hlen.symm]
      exact binary_follows hlen.symm h h' []
    · have harity : op.arity ≤ 2 := by cases op <;> decide
      simp only [List.length_cons] at hlen
      omega
  · have hthrow : runIntrinsic op args = throw (.arityMismatch op.arity args.length) := by
      unfold runIntrinsic Machine.callIntrinsic
      rw [if_neg hlen]
    rw [hthrow]
    exact .of_unsaid rfl _

end Lamina.Native
