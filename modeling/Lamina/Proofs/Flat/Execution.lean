import Lamina.Proofs.Flat.Expansion
import Lamina.Proofs.Lookup
import Lamina.Proofs.Machine.Alike

/-!
# What the code of a term computes

A term has a meaning of its own, `Term.eval`, which knows nothing of variables and temporaries.
Running the code of a term, made either way, ends as evaluating it does: it leaves the value in the
destination and spares every variable that was in use before (`code_runs`).
-/

namespace Lamina.Flat

open Lamina.Core (NodeId Module)
open Lamina.Machine (Value RunM Frame Alike execAll execAll_append execAll_singleton exec execBlock
  apply runIntrinsic condition)

variable {code code' : Var → ConvertState → List Instr × ConvertState} {number : String → Nat}
  {name : String} {dst : Var} {m : Module} {one two : Term} {last : Var → Var → Instr}
  {frame : Frame}

/-- A numbering of constructors that agrees with the table of those met so far: the unit value has
number zero, and the others their place counted from one. -/
structure Numbers (number : String → Nat) (table : List String) : Prop where
  unit : number "()" = 0
  place : ∀ {i name}, table[i]? = some name → number name = i + 1

theorem Numbers.of_prefix {table more} (h : Numbers number more) (hstart : table <+: more) :
    Numbers number table := by
  refine ⟨h.unit, ?_⟩
  intro i name hi
  obtain ⟨rest, rfl⟩ := hstart
  apply h.place
  rw [List.getElem?_append_left (List.getElem?_eq_some_iff.mp hi).1]
  exact hi

/-- The value of a constructor. Truth values are integers. -/
def conValue (number : String → Nat) (name : String) : Value :=
  if name = "True" then .int 1
  else if name = "False" then .int 0
  else .con (number name) []

namespace Term

/-- The value of a term; `env` holds the parameters, and `invoke` carries out calls. -/
def eval (number : String → Nat) (globals : Array GlobalSlot)
    (invoke : Callee → List Value → RunM Value) (env : NodeId → Value) : Term → RunM Value
  | int value => return .int value
  | str text => return .str text
  | con name => return conValue number name
  | param node => return env node
  | prim op => return .closure (.intrinsic op) op.arity []
  | global slot =>
    match globals[slot]? with
    | some entry => return .closure (.function entry.function) entry.arity []
    | none => throw (.unknownGlobal slot)
  | closure function arity captures =>
    captures.foldlM (fun func id => apply invoke func (env id))
      (.closure (.function function) arity [])
  | inlined value => value.eval number globals invoke env
  | app func arg => do
    let func ← func.eval number globals invoke env
    let arg ← arg.eval number globals invoke env
    apply invoke func arg
  | cond test onTrue onFalse => do
    if ← condition (← test.eval number globals invoke env) then
      onTrue.eval number globals invoke env
    else onFalse.eval number globals invoke env

/-- The constructors met after those in the table, in the order in which they are met. -/
def table : Term → List String → List String
  | con name, names =>
    if name = "True" ∨ name = "False" ∨ name = "()" ∨ name ∈ names then names
    else names ++ [name]
  | inlined value, names => value.table names
  | app func arg, names => arg.table (func.table names)
  | cond test onTrue onFalse, names => onFalse.table (onTrue.table (test.table names))
  | _, names => names

/-- Induction along the recursion of `code`: a direct call skips the inner application. -/
@[elab_as_elim]
theorem codeInduction {motive : Term → Prop} (int : ∀ value, motive (int value))
    (str : ∀ text, motive (str text)) (con : ∀ name, motive (con name))
    (param : ∀ node, motive (param node)) (prim : ∀ op, motive (prim op))
    (global : ∀ slot, motive (global slot))
    (closure : ∀ function arity captures, motive (closure function arity captures))
    (inlined : ∀ value, motive value → motive (inlined value))
    (app : ∀ func arg, motive func → motive arg →
      (∀ op first, func = Term.app (Term.prim op) first → motive first) → motive (app func arg))
    (cond : ∀ test onTrue onFalse, motive test → motive onTrue → motive onFalse →
      motive (cond test onTrue onFalse)) (t : Term) : motive t := by
  -- the argument of an inner application is reached by no case of its own, so it is carried along
  suffices h : motive t ∧ ∀ func arg, t = .app func arg → motive arg from h.1
  induction t with
  | int value => exact ⟨int value, nofun⟩
  | str text => exact ⟨str text, nofun⟩
  | con name => exact ⟨con name, nofun⟩
  | param node => exact ⟨param node, nofun⟩
  | prim op => exact ⟨prim op, nofun⟩
  | global slot => exact ⟨global slot, nofun⟩
  | closure function arity captures => exact ⟨closure function arity captures, nofun⟩
  | inlined value ih => exact ⟨inlined value ih.1, nofun⟩
  | app func arg ihFunc ihArg =>
    refine ⟨app func arg ihFunc.1 ihArg.1 fun op first h => ihFunc.2 _ first h, ?_⟩
    intro func' arg' h
    cases h
    exact ihArg.1
  | cond test onTrue onFalse ihTest ihYes ihNo =>
    exact ⟨cond test onTrue onFalse ihTest.1 ihYes.1 ihNo.1, nofun⟩

/-- An application is made into code in one of three ways. -/
theorem code_app_cases {motive : List Instr × ConvertState → Prop} {direct m func arg dst st}
    (generic : motive (pairCode (operandCode m func (func.code direct m))
      (operandCode m arg (arg.code direct m)) (.apply dst) st))
    (one : ∀ op, func = Term.prim op → op.arity = 1 →
      motive ((operandCode m arg (arg.code direct m) st).1.1 ++
        [.call dst op [(operandCode m arg (arg.code direct m) st).1.2]],
        (operandCode m arg (arg.code direct m) st).2))
    (two : ∀ op first, func = Term.app (Term.prim op) first → op.arity = 2 →
      motive (pairCode (operandCode m first (first.code direct m))
        (operandCode m arg (arg.code direct m)) (fun x y => .call dst op [x, y]) st)) :
    motive ((Term.app func arg).code direct m dst st) := by
  unfold Term.code
  split
  · split
    · rename_i op hop
      rw [Bool.and_eq_true, beq_iff_eq] at hop
      exact one op rfl hop.2
    · exact generic
  · split
    · rename_i op first hop
      rw [Bool.and_eq_true, beq_iff_eq] at hop
      exact two op first rfl hop.2
    · exact generic
  · exact generic

theorem prefix_table (t : Term) (names : List String) : names <+: t.table names := by
  induction t generalizing names with
  | con name =>
    unfold table
    split
    · exact List.prefix_rfl
    · exact List.prefix_append names [name]
  | inlined value ih => exact ih names
  | app func arg ihFunc ihArg => exact (ihFunc names).trans (ihArg _)
  | cond test onTrue onFalse ihTest ihYes ihNo =>
    exact ((ihTest names).trans (ihYes _)).trans (ihNo _)
  | _ => exact List.prefix_rfl

end Term

/-! ## What is counted -/

/-- Between two states of making code: the names in the table were met in between, and the
temporaries in use still are. -/
structure Counts (table : List String → List String) (st st' : ConvertState) : Prop where
  constructors : st'.constructors = table st.constructors
  nextTemp : st.nextTemp ≤ st'.nextTemp

namespace Counts

variable {table table' : List String → List String} {st st' st'' : ConvertState}

theorem refl (st : ConvertState) : Counts id st st := ⟨rfl, Nat.le_refl _⟩

theorem of_next (h : Counts table st.next st') : Counts table st st' :=
  ⟨h.constructors, Nat.le_of_succ_le h.nextTemp⟩

theorem trans (h : Counts table st st') (h' : Counts table' st' st'') :
    Counts (fun names => table' (table names)) st st'' :=
  ⟨by rw [h'.constructors, h.constructors], Nat.le_trans h.nextTemp h'.nextTemp⟩

end Counts

theorem conCode_counts (name : String) (dst : Var) (st : ConvertState) :
    Counts (Term.con name).table st (conCode name dst st).2 := by
  unfold conCode
  by_cases htrue : name = "True"
  · exact ⟨by simp [Term.table, htrue], by simp [htrue]⟩
  by_cases hfalse : name = "False"
  · exact ⟨by simp [Term.table, hfalse], by simp [hfalse]⟩
  by_cases hunit : name = "()"
  · exact ⟨by simp [Term.table, hunit], by simp [hunit]⟩
  rw [if_neg htrue, if_neg hfalse, if_neg hunit]
  cases hi : st.constructors.idxOf? name with
  | some i =>
    have hmem : name ∈ st.constructors := by
      by_contra hnot
      rw [List.idxOf?_eq_none_iff.mpr hnot] at hi
      cases hi
    exact ⟨(if_pos (by simp [hmem])).symm, Nat.le_refl _⟩
  | none =>
    have hnot : name ∉ st.constructors := List.idxOf?_eq_none_iff.mp hi
    exact ⟨(if_neg (by simp [htrue, hfalse, hunit, hnot])).symm, Nat.le_refl _⟩

theorem getElem_of_idxOf? {names : List String} {i : Nat} (h : names.idxOf? name = some i) :
    names[i]? = some name := by
  obtain ⟨hlt, heq, _⟩ := List.findIdx?_eq_some_iff_getElem.mp h
  rw [List.getElem?_eq_getElem hlt]
  simpa using heq

/-- A constructor is one instruction, with the number of the constructor unless it is a truth
value. -/
theorem conCode_eq {st} (hnum : Numbers number ((Term.con name).table st.constructors)) :
    (conCode name dst st).1 =
      [if name = "True" then .int dst 1 else if name = "False" then .int dst 0
        else .con dst (number name) name] := by
  unfold conCode
  by_cases htrue : name = "True"
  · rw [if_pos htrue, if_pos htrue]
  by_cases hfalse : name = "False"
  · rw [if_neg htrue, if_pos hfalse, if_neg htrue, if_pos hfalse]
  rw [if_neg htrue, if_neg hfalse, if_neg htrue, if_neg hfalse]
  by_cases hunit : name = "()"
  · rw [if_pos hunit, hunit, hnum.unit]
  rw [if_neg hunit]
  cases hi : st.constructors.idxOf? name with
  | some i =>
    have hplace := (hnum.of_prefix ((Term.con name).prefix_table _)).place (getElem_of_idxOf? hi)
    rw [hplace]
  | none =>
    have hnot : name ∉ st.constructors := List.idxOf?_eq_none_iff.mp hi
    have hplace : number name = st.constructors.length + 1 := by
      apply hnum.place
      unfold Term.table
      rw [if_neg (by simp [htrue, hfalse, hunit, hnot])]
      simp
    rw [hplace]

theorem captureCode_counts (m : Module) (dst func : Var) (captures : List NodeId)
    (st : ConvertState) : Counts id st (captureCode m dst func captures st).2 := by
  fun_induction captureCode m dst func captures st with
  | case1 | case2 => exact .refl _
  | case3 func id rest st _ more ih => exact ih.of_next

theorem closureCode_counts (m : Module) (function : FunctionId) (arity : Nat) (dst : Var)
    (captures : List NodeId) (st : ConvertState) :
    Counts id st (closureCode m function arity dst captures st).2 := by
  cases captures with
  | nil => exact .refl st
  | cons id rest => exact (captureCode_counts m dst _ _ st.next).of_next

theorem operandCode_counts (m : Module) (t : Term)
    (h : ∀ dst st, Counts t.table st (code dst st).2) (st : ConvertState) :
    Counts t.table st (operandCode m t code st).2 := by
  cases t with
  | param node => exact .refl st
  | _ => exact (h _ st.next).of_next

theorem pairCode_counts (h : ∀ dst st, Counts one.table st (code dst st).2)
    (h' : ∀ dst st, Counts two.table st (code' dst st).2) (st : ConvertState) :
    Counts (fun names => two.table (one.table names)) st
      (pairCode (operandCode m one code) (operandCode m two code') last st).2 :=
  (operandCode_counts m one h st).trans (operandCode_counts m two h' _)

/-- Either way of making code meets the constructors of a term in the same order. -/
theorem code_counts (direct : Bool) (m : Module) (t : Term) (dst : Var) (st : ConvertState) :
    Counts t.table st (t.code direct m dst st).2 := by
  induction t using Term.codeInduction generalizing dst st with
  | int | str | param | prim | global => exact .refl st
  | con name => exact conCode_counts name dst st
  | closure function arity captures => exact closureCode_counts m function arity dst captures st
  | inlined value ih => exact ih dst st
  | app func arg ihFunc ihArg ihFirst =>
    apply Term.code_app_cases (motive := fun made => Counts (Term.app func arg).table st made.2)
    · exact pairCode_counts ihFunc ihArg st
    · rintro op rfl _
      exact operandCode_counts m arg ihArg st
    · rintro op first rfl _
      exact pairCode_counts (ihFirst op first rfl) ihArg st
  | cond test onTrue onFalse ihTest ihYes ihNo =>
    have htest := operandCode_counts m test ihTest st
    exact (htest.trans (ihYes _ _).of_next).trans (ihNo _ _).of_next

theorem code_constructors (direct : Bool) (m : Module) (t : Term) (dst : Var) (st : ConvertState) :
    (t.code direct m dst st).2.constructors = t.table st.constructors :=
  (code_counts direct m t dst st).constructors

/-! ## What the code leaves behind -/

/-- `after` agrees with `frame` but for the temporaries that were not in use, those from `first`
on. -/
def Spares {α : Type} (first : Nat) (frame after : List (Var × α)) : Prop :=
  ∀ x, (∀ n, first ≤ n → x ≠ .temp n) → after.lookup x = frame.lookup x

namespace Spares

variable {α : Type} {frame middle after : List (Var × α)} {first : Nat}

theorem refl (first : Nat) (frame : List (Var × α)) : Spares first frame frame := fun _ _ => rfl

theorem trans {second : Nat} (h : Spares first frame middle) (hle : first ≤ second)
    (h' : Spares second middle after) : Spares first frame after := by
  intro x hx
  rw [h' x fun n hn => hx n (Nat.le_trans hle hn)]
  exact h x hx

theorem set_temp {n : Nat} (h : Spares first frame after) (hle : first ≤ n) (v : α) :
    Spares first frame ((.temp n, v) :: after) := by
  intro x hx
  rw [lookup_cons_of_ne (hx n hle)]
  exact h x hx

end Spares

/-- Code has set `dst` last. -/
def Sets (first : Nat) (frame : Frame) (dst : Var) (v : Value) (after : Frame) : Prop :=
  ∃ before, Spares first frame before ∧ after = (dst, v) :: before

theorem Sets.of_spares {first second middle after v} (h : Spares first frame middle)
    (hle : first ≤ second) (h' : Sets second middle dst v after) :
    Sets first frame dst v after := by
  obtain ⟨before, hbefore, rfl⟩ := h'
  exact ⟨before, h.trans hle hbefore, rfl⟩

/-- Code has made an operand available in `x`. -/
structure Holds (first : Nat) (frame : Frame) (x : Var) (v : Value) (after : Frame) : Prop where
  value : after.lookup x = some v
  spares : Spares first frame after

/-- The frame has the values of parameters. -/
def Provides (m : Module) (env : NodeId → Value) (frame : Frame) (params : List NodeId) : Prop :=
  ∀ id ∈ params, frame.lookup (Conversion.paramVar m id) = some (env id)

namespace Provides

variable {m : Module} {env : NodeId → Value} {frame after : Frame} {params more : List NodeId}

theorem of_subset (h : Provides m env frame more) (hsub : params ⊆ more) :
    Provides m env frame params := fun id hid => h id (hsub hid)

theorem of_spares {first : Nat} (h : Provides m env frame params)
    (hspares : Spares first frame after) : Provides m env after params := by
  intro id hid
  have hne : ∀ n, first ≤ n → Conversion.paramVar m id ≠ .temp n := by
    intro n _ heq
    cases heq
  rw [hspares _ hne]
  exact h id hid

end Provides

theorem Alike.set (x : RunM Value) (dst : Var) (first : Nat) {before : Frame}
    (h : Spares first frame before) :
    Alike (Sets first frame dst) x (do return (dst, ← x) :: before) := by
  have hx : x = x >>= pure := (bind_pure x).symm
  rw [hx, bind_assoc]
  refine Alike.bind (Alike.refl x) ?_
  rintro v _ rfl
  rw [pure_bind]
  exact Alike.pure ⟨before, h, rfl⟩

section

variable (p : Program) (invoke : Callee → List Value → RunM Value) {frame : Frame} {v f : Value}
  {dst x func : Var} {st : ConvertState} {t : Term} {op : Intrinsic} {captures : List NodeId}

theorem exec_apply {arg : Var} (dst : Var) (hfunc : frame.lookup func = some f)
    (harg : frame.lookup arg = some v) :
    exec p invoke (.apply dst func arg) frame =
      (do return (dst, ← apply invoke f v) :: frame) := by
  simp only [exec, Frame.get_of_lookup hfunc, Frame.get_of_lookup harg, pure_bind]

theorem captureCode_runs {m env} (hne : captures ≠ []) (hfunc : frame.lookup func = some f)
    (hframe : Provides m env frame captures) :
    Alike (Sets st.nextTemp frame dst)
      (captures.foldlM (fun func id => apply invoke func (env id)) f)
      (execAll p invoke (captureCode m dst func captures st).1 frame) := by
  induction captures generalizing func st frame f with
  | nil => exact absurd rfl hne
  | cons id rest ih =>
    cases rest with
    | nil =>
      simp only [captureCode, List.foldlM_cons, List.foldlM_nil, bind_pure]
      rw [execAll_singleton, exec_apply p invoke dst hfunc (hframe id (by simp))]
      exact Alike.set _ dst _ (Spares.refl _ frame)
    | cons other rest =>
      simp only [captureCode, execAll]
      rw [List.foldlM_cons, exec_apply p invoke _ hfunc (hframe id (by simp))]
      -- the closure so far stands in a temporary, and that spares the captured parameters
      refine Alike.bind (Alike.set _ _ st.nextTemp (Spares.refl _ frame)) ?_
      rintro v _ ⟨before, hbefore, rfl⟩
      have hspares := hbefore.set_temp (Nat.le_refl _) v
      refine Alike.mono (ih (List.cons_ne_nil other rest) List.lookup_cons_self
        ((hframe.of_subset (List.subset_cons_self id _)).of_spares hspares)) ?_
      intro w after hafter
      exact hafter.of_spares hspares (Nat.le_succ _)

theorem closureCode_runs {m env} (function : FunctionId) (arity : Nat)
    (hframe : Provides m env frame captures) :
    Alike (Sets st.nextTemp frame dst)
      (captures.foldlM (fun func id => apply invoke func (env id))
        (.closure (.function function) arity []))
      (execAll p invoke (closureCode m function arity dst captures st).1 frame) := by
  cases captures with
  | nil =>
    simp only [closureCode, execAll_singleton, exec, List.foldlM_nil]
    exact Alike.pure ⟨frame, Spares.refl _ frame, rfl⟩
  | cons id rest =>
    simp only [closureCode, execAll, exec, pure_bind]
    have hspares := (Spares.refl st.nextTemp frame).set_temp (Nat.le_refl _)
      (.closure (.function function) arity [])
    refine Alike.mono (captureCode_runs p invoke (List.cons_ne_nil id rest)
      List.lookup_cons_self (hframe.of_spares hspares)) ?_
    intro w after hafter
    exact hafter.of_spares hspares (Nat.le_succ _)

variable (direct : Bool) (m : Module) (number : String → Nat) (env : NodeId → Value)

/-- The code of a term does what the term means, whatever it is made into. -/
def Faithful (t : Term) : Prop :=
  ∀ dst st frame, Numbers number (t.table st.constructors) → Provides m env frame t.params →
    Alike (Sets st.nextTemp frame dst) (t.eval number p.globals invoke env)
      (execAll p invoke (t.code direct m dst st).1 frame)

variable {p invoke direct m number env}

theorem operandCode_runs (h : Faithful p invoke direct m number env t)
    (hnum : Numbers number (t.table st.constructors)) (hframe : Provides m env frame t.params) :
    Alike (Holds st.nextTemp frame (operandCode m t (t.code direct m) st).1.2)
      (t.eval number p.globals invoke env)
      (execAll p invoke (operandCode m t (t.code direct m) st).1.1 frame) := by
  unfold operandCode
  split
  · rename_i id
    simp only [execAll]
    exact Alike.pure ⟨hframe id (by simp [Term.params]), Spares.refl _ frame⟩
  · refine Alike.mono (h (.temp st.nextTemp) st.next frame hnum hframe) ?_
    rintro v _ ⟨before, hbefore, rfl⟩
    refine ⟨List.lookup_cons_self, ?_⟩
    exact ((Spares.refl _ frame).trans (Nat.le_succ _) hbefore).set_temp (Nat.le_refl _) v

/-- The variable of an operand is in use afterwards. -/
theorem operandCode_var (direct : Bool) (m : Module) (t : Term) (st : ConvertState) (n : Nat)
    (hn : (operandCode m t (t.code direct m) st).2.nextTemp ≤ n) :
    (operandCode m t (t.code direct m) st).1.2 ≠ .temp n := by
  unfold operandCode at hn ⊢
  split at hn
  · intro heq
    cases heq
  · -- its temporary was the first free one, and is counted as in use since
    have hle := (code_counts direct m t (.temp st.nextTemp) st.next).nextTemp
    have hstep : st.next.nextTemp = st.nextTemp + 1 := rfl
    simp only [ne_eq, Var.temp.injEq] at hn ⊢
    omega

theorem pairCode_runs {one two last} {k : Value → Value → RunM Value}
    (hone : Faithful p invoke direct m number env one)
    (htwo : Faithful p invoke direct m number env two)
    (hlast : ∀ {frame x y v w}, List.lookup x frame = some v → List.lookup y frame = some w →
      exec p invoke (last x y) frame = (do return (dst, ← k v w) :: frame))
    (hnum : Numbers number (two.table (one.table st.constructors)))
    (hframe : Provides m env frame (one.params ++ two.params)) :
    Alike (Sets st.nextTemp frame dst)
      (one.eval number p.globals invoke env >>= fun v =>
        two.eval number p.globals invoke env >>= fun w => k v w)
      (execAll p invoke (pairCode (operandCode m one (one.code direct m))
        (operandCode m two (two.code direct m)) last st).1 frame) := by
  unfold pairCode
  simp only [execAll_append, bind_assoc]
  refine Alike.bind (operandCode_runs hone (hnum.of_prefix (two.prefix_table _))
    (hframe.of_subset (List.subset_append_left _ _))) ?_
  intro v middle hmiddle
  obtain ⟨hcount, hnext⟩ := operandCode_counts m one (code_counts direct m one) st
  refine Alike.bind (operandCode_runs htwo (by rw [hcount]; exact hnum)
    ((hframe.of_subset (List.subset_append_right _ _)).of_spares hmiddle.spares)) ?_
  intro w after hafter
  -- the second operand leaves the variable of the first one alone
  have hfirst := hafter.spares _ (operandCode_var direct m one st)
  rw [execAll_singleton, hlast (hfirst.trans hmiddle.value) hafter.value]
  exact Alike.set _ dst _ (hmiddle.spares.trans hnext hafter.spares)

/-! ## The code of a term -/

theorem conCode_runs {name : String} (frame : Frame)
    (hnum : Numbers number ((Term.con name).table st.constructors)) :
    execAll p invoke (conCode name dst st).1 frame =
      pure ((dst, conValue number name) :: frame) := by
  rw [conCode_eq hnum, execAll_singleton]
  unfold conValue
  split
  · rfl
  · split <;> rfl

theorem apply_intrinsic_one (h : op.arity = 1) (v : Value) :
    apply invoke (.closure (.intrinsic op) op.arity []) v = invoke (.intrinsic op) [v] := by
  simp [apply, h, maxArity]

theorem apply_intrinsic_first (h : op.arity = 2) (v : Value) :
    apply invoke (.closure (.intrinsic op) op.arity []) v =
      pure (.closure (.intrinsic op) op.arity [v]) := by
  simp [apply, h]

theorem apply_intrinsic_second (h : op.arity = 2) (v w : Value) :
    apply invoke (.closure (.intrinsic op) op.arity [v]) w = invoke (.intrinsic op) [v, w] := by
  simp [apply, h, maxArity]

theorem exec_call_one (dst : Var) (op : Intrinsic) (hx : frame.lookup x = some v) :
    exec p invoke (.call dst op [x]) frame = (do return (dst, ← runIntrinsic op [v]) :: frame) := by
  simp only [exec, List.mapM_cons, List.mapM_nil, Frame.get_of_lookup hx, pure_bind]

theorem exec_call_two {y w} (dst : Var) (op : Intrinsic) (hx : frame.lookup x = some v)
    (hy : frame.lookup y = some w) :
    exec p invoke (.call dst op [x, y]) frame =
      (do return (dst, ← runIntrinsic op [v, w]) :: frame) := by
  simp only [exec, List.mapM_cons, List.mapM_nil, Frame.get_of_lookup hx, Frame.get_of_lookup hy,
    pure_bind]

theorem exec_branch {yesVar noVar yes no} (dst : Var) (hx : frame.lookup x = some v) :
    exec p invoke (.branch dst x yes yesVar no noVar) frame =
      condition v >>= fun taken =>
        if taken then execAll p invoke yes frame >>= fun after =>
          (do return (dst, ← after.get yesVar) :: after)
        else execAll p invoke no frame >>= fun after =>
          (do return (dst, ← after.get noVar) :: after) := by
  simp only [exec, Frame.get_of_lookup hx, pure_bind]

/-- The code of a branch computes into a temporary, which is then copied. -/
theorem blockCode_runs (h : Faithful p invoke direct m number env t) (dst : Var)
    (hnum : Numbers number (t.table st.constructors)) (hframe : Provides m env frame t.params) :
    Alike (Sets st.nextTemp frame dst) (t.eval number p.globals invoke env)
      (execAll p invoke (t.code direct m (.temp st.nextTemp) st.next).1 frame >>= fun after =>
        (do return (dst, ← after.get (.temp st.nextTemp)) :: after)) := by
  rw [← bind_pure (t.eval number p.globals invoke env)]
  refine Alike.bind (h (.temp st.nextTemp) st.next frame hnum hframe) ?_
  rintro v _ ⟨before, hbefore, rfl⟩
  rw [Frame.get_of_lookup List.lookup_cons_self, pure_bind]
  refine Alike.pure ⟨_, ?_, rfl⟩
  exact ((Spares.refl _ frame).trans (Nat.le_succ _) hbefore).set_temp (Nat.le_refl _) v

/-- The code of a term, made either way, ends as the evaluation of the term does: with its error, or
with its value in the destination. -/
theorem code_runs (hinvoke : ∀ op args, invoke (.intrinsic op) args = runIntrinsic op args)
    (t : Term) : Faithful p invoke direct m number env t := by
  induction t using Term.codeInduction with
  | int value | str text | prim op =>
    intro dst st frame hnum hframe
    simp only [Term.code, execAll_singleton, exec]
    exact Alike.pure ⟨frame, Spares.refl _ frame, rfl⟩
  | con name =>
    intro dst st frame hnum hframe
    simp only [Term.code, conCode_runs frame hnum]
    exact Alike.pure ⟨frame, Spares.refl _ frame, rfl⟩
  | param node =>
    intro dst st frame hnum hframe
    have hnode := hframe node (by simp [Term.params])
    simp only [Term.code, execAll_singleton, exec, Frame.get_of_lookup hnode, pure_bind]
    exact Alike.pure ⟨frame, Spares.refl _ frame, rfl⟩
  | global slot =>
    intro dst st frame hnum hframe
    simp only [Term.code, execAll_singleton, exec, Term.eval]
    cases p.globals[slot]? with
    | some entry => exact Alike.pure ⟨frame, Spares.refl _ frame, rfl⟩
    | none => exact Alike.throw _ _
  | closure function arity captures =>
    intro dst st frame hnum hframe
    exact closureCode_runs p invoke function arity hframe
  | inlined value ih =>
    intro dst st frame hnum hframe
    exact ih dst st frame hnum hframe
  | app func arg ihFunc ihArg ihFirst =>
    intro dst st frame hnum hframe
    apply Term.code_app_cases (motive := fun made => Alike (Sets st.nextTemp frame dst)
      ((Term.app func arg).eval number p.globals invoke env) (execAll p invoke made.1 frame))
    · exact pairCode_runs ihFunc ihArg (exec_apply p invoke dst) hnum hframe
    · rintro op rfl harity
      -- the closure of the intrinsic is not made at all
      have heval : (Term.app (.prim op) arg).eval number p.globals invoke env =
          arg.eval number p.globals invoke env >>= fun v => runIntrinsic op [v] := by
        simp only [Term.eval, pure_bind, apply_intrinsic_one harity, hinvoke]
      rw [heval, execAll_append]
      refine Alike.bind (operandCode_runs ihArg hnum hframe) ?_
      intro v after hafter
      rw [execAll_singleton, exec_call_one dst op hafter.value]
      exact Alike.set _ dst _ hafter.spares
    · rintro op first rfl harity
      have heval : (Term.app (.app (.prim op) first) arg).eval number p.globals invoke env =
          first.eval number p.globals invoke env >>= fun v =>
            arg.eval number p.globals invoke env >>= fun w => runIntrinsic op [v, w] := by
        simp only [Term.eval, pure_bind, bind_assoc, apply_intrinsic_first harity,
          apply_intrinsic_second harity, hinvoke]
      rw [heval]
      exact pairCode_runs (ihFirst op first rfl) ihArg (exec_call_two dst op) hnum hframe
  | cond test onTrue onFalse ihTest ihYes ihNo =>
    intro dst st frame hnum hframe
    simp only [Term.code, execAll_append]
    obtain ⟨hcount, hle⟩ := operandCode_counts m test (code_counts direct m test) st
    have htest := operandCode_runs ihTest
      (hnum.of_prefix ((onTrue.prefix_table _).trans (onFalse.prefix_table _)))
      (hframe.of_subset (by simp [Term.params]))
    refine Alike.bind htest ?_
    generalize operandCode m test (test.code direct m) st = made at hcount hle ⊢
    intro v middle hmiddle
    obtain ⟨hyescount, hyesle⟩ :=
      code_counts direct m onTrue (.temp made.2.nextTemp) made.2.next
    rw [execAll_singleton, exec_branch dst hmiddle.value]
    -- only the branch that is taken is run, but both were counted when the code was made
    refine Alike.bind (Alike.refl (condition v)) ?_
    rintro taken _ rfl
    cases taken with
    | true =>
      refine Alike.mono (blockCode_runs ihYes dst ?_ ?_) ?_
      · rw [hcount]
        exact hnum.of_prefix (onFalse.prefix_table _)
      · exact (hframe.of_subset (by simp [Term.params])).of_spares hmiddle.spares
      · intro w after hafter
        exact hafter.of_spares hmiddle.spares hle
    | false =>
      refine Alike.mono (blockCode_runs ihNo dst ?_ ?_) ?_
      · rw [hyescount]
        show Numbers number (onFalse.table (onTrue.table made.2.constructors))
        rw [hcount]
        exact hnum
      · exact (hframe.of_subset (by simp [Term.params])).of_spares hmiddle.spares
      · intro w after hafter
        refine hafter.of_spares hmiddle.spares ?_
        exact Nat.le_trans hle (Nat.le_trans (Nat.le_succ _) hyesle)

/-- A block made from a term ends as the evaluation of the term does. -/
theorem execBlock_code (hinvoke : ∀ op args, invoke (.intrinsic op) args = runIntrinsic op args)
    (hnum : Numbers number (t.table st.constructors)) (hframe : Provides m env frame t.params) :
    execBlock p invoke ⟨(t.code direct m dst st).1, dst⟩ frame =
      t.eval number p.globals invoke env := by
  apply Eq.symm
  apply Alike.eq
  rw [← bind_pure (t.eval number p.globals invoke env)]
  refine Alike.bind (code_runs hinvoke t dst st frame hnum hframe) ?_
  rintro v _ ⟨before, _, rfl⟩
  rw [Frame.get_of_lookup List.lookup_cons_self]
  exact Alike.pure rfl

end

end Lamina.Flat
