import Lamina.Proofs.Flat.Execution

/-!
# The code of a term

What the instructions of a term look like, as a relation (`Coded`): one rule for each way to make
code, whether intrinsics are called directly or not. What holds of all code is proved by induction
on it.
-/

namespace Lamina.Flat

open Lamina.Core (NodeId Module)

mutual

/-- Instructions that compute a term into a variable, and the counters before and after. -/
inductive Coded (m : Module) : Term → Var → ConvertState → List Instr → ConvertState → Prop
  | int {value dst st} : Coded m (.int value) dst st [.int dst value] st
  | str {text dst st} : Coded m (.str text) dst st [.str dst text] st
  | con {name dst st} : Coded m (.con name) dst st (conCode name dst st).1 (conCode name dst st).2
  | param {node dst st} : Coded m (.param node) dst st [.copy dst (Conversion.paramVar m node)] st
  | prim {op dst st} : Coded m (.prim op) dst st [.closure dst (.intrinsic op) op.arity] st
  | global {slot dst st} : Coded m (.global slot) dst st [.load dst slot] st
  | closure {function arity captures dst st} :
      Coded m (.closure function arity captures) dst st
        (closureCode m function arity dst captures st).1
        (closureCode m function arity dst captures st).2
  | inlined {value dst st after code} (h : Coded m value dst st code after) :
      Coded m (.inlined value) dst st code after
  | apply {func arg dst x y st middle after one two} (hfunc : CodedOperand m func st one x middle)
      (harg : CodedOperand m arg middle two y after) :
      Coded m (.app func arg) dst st (one ++ two ++ [.apply dst x y]) after
  /-- An intrinsic with its one argument. -/
  | callOne {op arg dst x st after one} (hop : op.arity = 1)
      (harg : CodedOperand m arg st one x after) :
      Coded m (.app (.prim op) arg) dst st (one ++ [.call dst op [x]]) after
  /-- An intrinsic with its two arguments. -/
  | callTwo {op : Intrinsic} {first arg : Term} {dst x y : Var} {st middle after : ConvertState}
      {one two : List Instr} (hop : op.arity = 2) (hfirst : CodedOperand m first st one x middle)
      (harg : CodedOperand m arg middle two y after) :
      Coded m (.app (.app (.prim op) first) arg) dst st (one ++ two ++ [.call dst op [x, y]]) after
  | cond {test onTrue onFalse dst x st middle late after one yes no}
      (htest : CodedOperand m test st one x middle)
      (htrue : Coded m onTrue (.temp middle.nextTemp) middle.next yes late)
      (hfalse : Coded m onFalse (.temp late.nextTemp) late.next no after) :
      Coded m (.cond test onTrue onFalse) dst st
        (one ++ [.branch dst x yes (.temp middle.nextTemp) no (.temp late.nextTemp)]) after

/-- Instructions that make the value of a term available in a variable. -/
inductive CodedOperand (m : Module) :
    Term → ConvertState → List Instr → Var → ConvertState → Prop
  | param {node st} : CodedOperand m (.param node) st [] (Conversion.paramVar m node) st
  | temp {t st after code} (h : Coded m t (.temp st.nextTemp) st.next code after) :
      CodedOperand m t st code (.temp st.nextTemp) after

end

theorem operandCode_coded {direct m t}
    (h : ∀ dst st, Coded m t dst st (t.code direct m dst st).1 (t.code direct m dst st).2)
    (st : ConvertState) :
    CodedOperand m t st (operandCode m t (t.code direct m) st).1.1
      (operandCode m t (t.code direct m) st).1.2 (operandCode m t (t.code direct m) st).2 := by
  unfold operandCode
  split
  · exact .param
  · exact .temp (h _ _)

/-- The code of a term follows the rules. -/
theorem code_coded (direct : Bool) (m : Module) (t : Term) (dst : Var) (st : ConvertState) :
    Coded m t dst st (t.code direct m dst st).1 (t.code direct m dst st).2 := by
  induction t using Term.codeInduction generalizing dst st with
  | int value => exact .int
  | str text => exact .str
  | con name => exact .con
  | param node => exact .param
  | prim op => exact .prim
  | global slot => exact .global
  | closure function arity captures => exact .closure
  | inlined value ih => exact .inlined (ih dst st)
  | app func arg ihFunc ihArg ihFirst =>
    apply Term.code_app_cases (motive := fun made =>
      Coded m (.app func arg) dst st made.1 made.2)
    · exact .apply (operandCode_coded ihFunc st) (operandCode_coded ihArg _)
    · rintro op rfl hop
      exact .callOne hop (operandCode_coded ihArg st)
    · rintro op first rfl hop
      exact .callTwo hop (operandCode_coded (ihFirst op first rfl) st)
        (operandCode_coded ihArg _)
  | cond test onTrue onFalse ihTest ihYes ihNo =>
    exact .cond (operandCode_coded ihTest st) (ihYes _ _) (ihNo _ _)

end Lamina.Flat
