import Mathlib.Data.Int.ModEq
import Lamina.Proofs.Native.Primitive

/-!
# Arithmetic at the limits of a word

Both kinds of run compute with 64-bit integers. The machine has operations that wrap. A native
program has those of the C language: unsigned ones wrap, and a signed one whose exact result does
not fit has no defined result at all, so each routine is written to stay clear of that. What the
routines compute is spelled out here as expressions, whose evaluation fails at an undefined
operation.
-/

namespace Lamina.Native

open Lamina.Flat (Callee)
open Lamina.Machine (Value)

/-! ## Expressions over words -/

/-- The integer types of the routines. -/
inductive WordType
  | signed
  | unsigned

/-- The values of an integer type. -/
abbrev WordType.Word : WordType → Type
  | .signed => Int64
  | .unsigned => UInt64

inductive WordOp
  | add | sub | mul | div | mod

/-- A result that a signed word can hold. -/
def Fits (n : Int) : Prop := Int64.minValue.toInt ≤ n ∧ n ≤ Int64.maxValue.toInt

instance (n : Int) : Decidable (Fits n) := inferInstanceAs (Decidable (_ ∧ _))

namespace WordOp

/-- A signed operation: nothing unless the exact result fits. A quotient by zero does not exist, and
where there is no quotient there is no remainder. -/
def signed (op : WordOp) (a b : Int64) : Option Int64 :=
  let exact (defined result : Int) := if Fits defined then some (Int64.ofInt result) else none
  let quotient := a.toInt.tdiv b.toInt
  match op with
  | add => exact (a.toInt + b.toInt) (a.toInt + b.toInt)
  | sub => exact (a.toInt - b.toInt) (a.toInt - b.toInt)
  | mul => exact (a.toInt * b.toInt) (a.toInt * b.toInt)
  | div => if b = 0 then none else exact quotient quotient
  | mod => if b = 0 then none else exact quotient (a.toInt.tmod b.toInt)

/-- An unsigned operation. Only division by zero is undefined. -/
def unsigned (op : WordOp) (a b : UInt64) : Option UInt64 :=
  match op with
  | add => some (a + b)
  | sub => some (a - b)
  | mul => some (a * b)
  | div => if b = 0 then none else some (a / b)
  | mod => if b = 0 then none else some (a % b)

end WordOp

/-- What a routine computes from its operands, with the type of each part. A conversion keeps the
bits of a word. -/
inductive WordExpr : WordType → Type
  | left : WordExpr .signed
  | right : WordExpr .signed
  | const (n : Int64) : WordExpr .signed
  | toUnsigned (e : WordExpr .signed) : WordExpr .unsigned
  | toSigned (e : WordExpr .unsigned) : WordExpr .signed
  | signed (op : WordOp) (a b : WordExpr .signed) : WordExpr .signed
  | unsigned (op : WordOp) (a b : WordExpr .unsigned) : WordExpr .unsigned
  /-- One of two expressions, of which only that one is evaluated. -/
  | ifEq (a b yes no : WordExpr .signed) : WordExpr .signed

/-- The value of an expression, if no operation on the way is undefined. -/
def WordExpr.eval (x y : Int64) : {type : WordType} → WordExpr type → Option type.Word
  | _, .left => some x
  | _, .right => some y
  | _, .const n => some n
  | _, .toUnsigned e => (e.eval x y).map Int64.toUInt64
  | _, .toSigned e => (e.eval x y).map UInt64.toInt64
  | _, .signed op a b => do op.signed (← a.eval x y) (← b.eval x y)
  | _, .unsigned op a b => do op.unsigned (← a.eval x y) (← b.eval x y)
  | _, .ifEq a b yes no => do if (← a.eval x y) = (← b.eval x y) then yes.eval x y else no.eval x y

open WordExpr in
/-- The arithmetic of the routines, behind the test for a zero divisor. -/
def routine : Intrinsic → Option (WordExpr .signed)
  | .plus => some (.toSigned (.unsigned .add (.toUnsigned left) (.toUnsigned right)))
  | .minus => some (.toSigned (.unsigned .sub (.toUnsigned left) (.toUnsigned right)))
  | .mult => some (.toSigned (.unsigned .mul (.toUnsigned left) (.toUnsigned right)))
  | .div => some (.ifEq right (.const (-1))
      (.toSigned (.unsigned .sub (.toUnsigned (.const 0)) (.toUnsigned left)))
      (.signed .div left right))
  | .mod => some (.ifEq right (.const (-1)) (.const 0) (.signed .mod left right))
  | .negate => some (.toSigned (.unsigned .sub (.toUnsigned (.const 0)) (.toUnsigned left)))
  | _ => none

/-! ## Quotients and remainders -/

variable {a b : Int64}

theorem toInt_ne_zero (hb : b ≠ 0) : b.toInt ≠ 0 := by
  rw [← Int64.toInt_zero, Ne, Int64.toInt_inj]
  exact hb

/-- A quotient is exact unless it is that of the least word by minus one. -/
theorem toInt_div_eq (h : ¬(a = Int64.minValue ∧ b = -1)) :
    (a / b).toInt = a.toInt.tdiv b.toInt := by
  by_cases ha : a = Int64.minValue
  · exact Int64.toInt_div_of_ne_right a b fun hb => h ⟨ha, hb⟩
  · exact Int64.toInt_div_of_ne_left a b ha

/-- The laws of a quotient and a remainder of words: the remainder is smaller than the divisor and
has the sign of the dividend, the two give the dividend back, and the quotient is the exact one
without its fraction, unless that does not fit. -/
structure Truncates (a b q r : Int64) : Prop where
  lt : r.toInt.natAbs < b.toInt.natAbs
  sign : r = 0 ∨ r.toInt.sign = a.toInt.sign
  recompose : b.toInt * q.toInt + r.toInt ≡ a.toInt [ZMOD 2 ^ 64]
  quotient : ¬(a = Int64.minValue ∧ b = -1) → q.toInt = a.toInt.tdiv b.toInt
  wraps : a = Int64.minValue → b = -1 → q = Int64.minValue

theorem bmod_modEq (n : Int) : n.bmod (2 ^ 64) ≡ n [ZMOD 2 ^ 64] := Int.bmod_emod

theorem truncates_div_mod (a : Int64) (hb : b ≠ 0) : Truncates a b (a / b) (a % b) where
  lt := by
    rw [Int64.toInt_mod, Int.natAbs_tmod]
    exact Nat.mod_lt _ (Int.natAbs_pos.mpr (toInt_ne_zero hb))
  sign := by
    rw [← Int64.toInt_inj, Int64.toInt_mod, Int.sign_tmod, Int64.toInt_zero]
    split
    · rename_i hdvd
      exact .inl (Int.tmod_eq_zero_of_dvd hdvd)
    · exact .inr rfl
  recompose := by
    rw [Int64.toInt_div, Int64.toInt_mod]
    calc
      b.toInt * (a.toInt.tdiv b.toInt).bmod (2 ^ 64) + a.toInt.tmod b.toInt
          ≡ b.toInt * a.toInt.tdiv b.toInt + a.toInt.tmod b.toInt [ZMOD 2 ^ 64] :=
        ((bmod_modEq _).mul_left _).add_right _
      _ = a.toInt := Int.mul_tdiv_add_tmod _ _
  quotient := toInt_div_eq
  wraps := by
    rintro rfl rfl
    decide

/-! ## Routines -/

/-- A quotient fits unless the divisor is minus one. -/
theorem fits_tdiv (a : Int64) (hb : b ≠ -1) : Fits (a.toInt.tdiv b.toInt) := by
  rw [← toInt_div_eq fun h => hb h.2]
  exact ⟨Int64.minValue_le_toInt _, Int64.toInt_le _⟩

theorem signed_div (a : Int64) (hzero : b ≠ 0) (hb : b ≠ -1) :
    WordOp.div.signed a b = some (a / b) := by
  simp only [WordOp.signed]
  rw [if_neg hzero, if_pos (fits_tdiv a hb), ← toInt_div_eq fun h => hb h.2, Int64.ofInt_toInt]

theorem signed_mod (a : Int64) (hzero : b ≠ 0) (hb : b ≠ -1) :
    WordOp.mod.signed a b = some (a % b) := by
  simp only [WordOp.signed]
  rw [if_neg hzero, if_pos (fits_tdiv a hb), ← Int64.toInt_mod, Int64.ofInt_toInt]

variable {w : World Callee} {p q : Address}

theorem int_of_cell (op : Intrinsic) (h : w.cells[p]? = some (.int a)) :
    Primitive.int op p w = (.ok a, w) := by
  rw [Primitive.int, CodeM.bind_apply, load_of_cell h]
  rfl

theorem arith_of_cells (op : Intrinsic) (f : UInt64 → UInt64 → UInt64)
    (hp : w.cells[p]? = some (.int a)) (hq : w.cells[q]? = some (.int b)) :
    Primitive.arith op f p q w =
      (.ok w.cells.size, ⟨w.cells.push (.int (f a.toUInt64 b.toUInt64).toInt64), w.stdout⟩) := by
  rw [Primitive.arith, CodeM.bind_apply, int_of_cell op hp]
  simp only [CodeM.bind_apply, int_of_cell op hq]
  rfl

theorem divide_of_cells (op : Intrinsic) (f : Int64 → Int64 → Int64)
    (hp : w.cells[p]? = some (.int a)) (hq : w.cells[q]? = some (.int b)) :
    Primitive.divide op f p q w =
      if b = 0 then (.error .divisionByZero, w)
      else (.ok w.cells.size, ⟨w.cells.push (.int (f a b)), w.stdout⟩) := by
  rw [Primitive.divide, CodeM.bind_apply, int_of_cell op hp]
  simp only [CodeM.bind_apply, int_of_cell op hq]
  split <;> rfl

theorem divide_of_ne_zero (op : Intrinsic) (f : Int64 → Int64 → Int64) (a : Int64) (hb : b ≠ 0) :
    Machine.Primitive.divide op f (.int a) (.int b) = .ok (.int (f a b)) := if_neg hb

/-- An integer comes out, and a cell with it is made; or both kinds of run refuse a zero divisor. -/
def Agree (w : World Callee) (b : Int64) (machine : Except Machine.RunError (Value × String))
    (native : CodeM Address) (expr : Option Int64) : Prop :=
  (∃ n : Int64, machine = .ok (.int n, "") ∧
      native w = (.ok w.cells.size, ⟨w.cells.push (.int n), w.stdout⟩) ∧ expr = some n) ∨
    b = 0 ∧ machine = .error .divisionByZero ∧ native w = (.error .divisionByZero, w)

theorem divide_agrees (op : Intrinsic) {f g} (hg : ∀ x y, g x y = f x y) {expr}
    (hexpr : b ≠ 0 → expr = some (f a b)) (hp : w.cells[p]? = some (.int a))
    (hq : w.cells[q]? = some (.int b)) :
    Agree w b (do return (← Machine.Primitive.divide op f (.int a) (.int b), ""))
      (Primitive.divide op g p q) expr := by
  have hnative := divide_of_cells op g hp hq
  by_cases hb : b = 0
  · rw [if_pos hb] at hnative
    refine .inr ⟨hb, ?_, hnative⟩
    rw [hb]
    rfl
  · rw [if_neg hb, hg] at hnative
    refine .inl ⟨f a b, ?_, hnative, hexpr hb⟩
    rw [divide_of_ne_zero op f a hb]
    rfl

/-- The routines evaluate nothing that is undefined. -/
theorem routine_agrees {op e} (h : routine op = some e) (hp : w.cells[p]? = some (.int a))
    (hq : w.cells[q]? = some (.int b)) :
    Agree w b (Machine.callIntrinsic op ([.int a, .int b].take op.arity))
      (callIntrinsic op ([p, q].take op.arity)) (e.eval a b) := by
  cases op with
  | plus =>
    cases h
    exact .inl ⟨a + b, rfl, arith_of_cells .plus _ hp hq, rfl⟩
  | minus =>
    cases h
    exact .inl ⟨a - b, rfl, arith_of_cells .minus _ hp hq, rfl⟩
  | mult =>
    cases h
    exact .inl ⟨a * b, rfl, arith_of_cells .mult _ hp hq, rfl⟩
  | div =>
    cases h
    refine divide_agrees .div Primitive.quotient_eq (fun hzero => ?_) hp hq
    by_cases hb : b = -1
    · subst hb
      rw [← Primitive.quotient_eq]
      rfl
    · exact (if_neg hb).trans (signed_div a hzero hb)
  | mod =>
    cases h
    refine divide_agrees .mod Primitive.remainder_eq (fun hzero => ?_) hp hq
    by_cases hb : b = -1
    · subst hb
      rw [← Primitive.remainder_eq]
      rfl
    · exact (if_neg hb).trans (signed_mod a hzero hb)
  | negate =>
    cases h
    refine .inl ⟨-a, rfl, ?_, congrArg some (Int64.zero_sub a)⟩
    show (Primitive.int .negate p >>= fun x => alloc (.int (0 - x))) w = _
    rw [CodeM.bind_apply, int_of_cell .negate hp, ← Int64.zero_sub]
    rfl
  | _ => cases h

/-- Arithmetic at the limits of 64 bits. Division by anything but zero gives a quotient and a
remainder that obey the laws of truncating division, and wraps only where the quotient does not fit;
sums, differences, products and opposites are those of the integers modulo 2⁶⁴. The routines of a
native program give the same integers for all operands, and perform no signed operation that
overflows: that would leave their expressions without a value. -/
theorem arithmetic_at_limits :
    (∀ a b : Int64, b ≠ 0 → ∃ q r,
      Machine.callIntrinsic .div [.int a, .int b] = .ok (.int q, "") ∧
        Machine.callIntrinsic .mod [.int a, .int b] = .ok (.int r, "") ∧ Truncates a b q r) ∧
      (∀ a b : Int64, ∃ sum difference product opposite,
        Machine.callIntrinsic .plus [.int a, .int b] = .ok (.int sum, "") ∧
          Machine.callIntrinsic .minus [.int a, .int b] = .ok (.int difference, "") ∧
          Machine.callIntrinsic .mult [.int a, .int b] = .ok (.int product, "") ∧
          Machine.callIntrinsic .negate [.int a] = .ok (.int opposite, "") ∧
          sum.toInt ≡ a.toInt + b.toInt [ZMOD 2 ^ 64] ∧
          difference.toInt ≡ a.toInt - b.toInt [ZMOD 2 ^ 64] ∧
          product.toInt ≡ a.toInt * b.toInt [ZMOD 2 ^ 64] ∧
          opposite.toInt ≡ -a.toInt [ZMOD 2 ^ 64]) ∧
      ∀ op ∈ [Intrinsic.plus, .minus, .mult, .div, .mod, .negate], ∃ e, routine op = some e ∧
        ∀ (w : World Callee) (p q : Address) (a b : Int64),
          w.cells[p]? = some (.int a) → w.cells[q]? = some (.int b) →
            Agree w b (Machine.callIntrinsic op ([.int a, .int b].take op.arity))
              (callIntrinsic op ([p, q].take op.arity)) (e.eval a b) := by
  refine ⟨fun a b hb => ⟨a / b, a % b, ?_, ?_, truncates_div_mod a hb⟩, fun a b => ?_, ?_⟩
  · exact congrArg (· >>= fun v => pure (v, "")) (divide_of_ne_zero .div (· / ·) a hb)
  · exact congrArg (· >>= fun v => pure (v, "")) (divide_of_ne_zero .mod (· % ·) a hb)
  · refine ⟨a + b, a - b, a * b, -a, rfl, rfl, rfl, rfl, ?_, ?_, ?_, ?_⟩
    · exact Int64.toInt_add a b ▸ bmod_modEq _
    · exact Int64.toInt_sub a b ▸ bmod_modEq _
    · exact Int64.toInt_mul a b ▸ bmod_modEq _
    · exact Int64.toInt_neg a ▸ bmod_modEq _
  · intro op hop
    have hall : ∀ op ∈ [Intrinsic.plus, .minus, .mult, .div, .mod, .negate],
        (routine op).isSome := by decide
    obtain ⟨e, he⟩ := Option.isSome_iff_exists.mp (hall op hop)
    exact ⟨e, he, fun w p q a b hp hq => routine_agrees he hp hq⟩

end Lamina.Native
