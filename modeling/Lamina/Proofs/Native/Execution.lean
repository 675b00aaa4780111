import Lamina.Proofs.Flat.Outline
import Lamina.Proofs.Native.Application
import Lamina.Proofs.Native.Primitive

/-!
# The native code of a term

Native code follows the evaluation of the term it was made from (`code_follows`). It declares a
variable for each instruction, and those that a branch declares end with it; as temporaries are
never used twice, the variables that were in use before are not touched.
-/

namespace Lamina

/-- The texts in a term. -/
def Flat.Term.texts : Flat.Term → List String
  | .str text => [text]
  | .inlined value => value.texts
  | .app func arg => func.texts ++ arg.texts
  | .cond test onTrue onFalse => test.texts ++ onTrue.texts ++ onFalse.texts
  | _ => []

namespace Native

open Lamina.Core (NodeId Module)
open Lamina.Flat (Callee Var Instr Term ConvertState GlobalSlot FunctionId Numbers Spares
  captureCode closureCode operandCode pairCode)
open Lamina.Flat.Conversion (paramVar)
open Lamina.Machine (Value RunM RunError State condition runIntrinsic)

variable {short : Prop} {w : World Callee} {v : Value} {a b : Address} {scope : Scope} {first : Nat}

/-! ## Applying and testing -/

/-- From every memory that has the cells of `init`, native calls follow those of a run. -/
structure Calls (short : Prop) (init : World Callee) (invoke : Callee → List Value → RunM Value)
    (call : Callee → List Address → CodeM Address) : Prop where
  follows : ∀ {w callee args addresses},
    init.Extends w → List.Forall₂ (Represents w) args addresses →
      Follows short w Represents (invoke callee args) (call callee addresses)

variable {init : World Callee} {invoke : Callee → List Value → RunM Value}
  {call : Callee → List Address → CodeM Address}

theorem apply_follows (hcalls : Calls short init invoke call) (hinit : init.Extends w) {f : Value}
    (hf : Represents w f a) (hv : Represents w v b) :
    Follows short w Represents (Machine.apply invoke f v) (apply call a b) := by
  intro st hout
  obtain ⟨u, c, w', hx, hy, hgrows, hrep⟩ | ⟨e, fatal, hx, hy, he⟩ |
    ⟨callee, args, addresses, hx, hy, hall⟩ := apply_cases invoke call hf hv
  · rw [hx, hy]
    exact .done (hout.trans hgrows.stdout.symm) hgrows.keeps hrep
  · rw [hx, hy]
    exact .failed hout he
  · rw [hx, hy]
    exact hcalls.follows hinit hall st hout

theorem truthy_follows (h : Represents w v a) :
    Follows short w (fun _ => Eq) (condition v) (truthy a) := by
  cases h with
  | int hcell => exact .load_bind hcell (.pure rfl)
  | str hcell | con hcell | closure hcell => exact .load_bind hcell (.throw rfl)

/-! ## Scopes -/

theorem Scope.get_of_lookup {x : Var} (h : scope.lookup x = some a) : scope.get x = pure a := by
  unfold Scope.get
  rw [h]

/-- Code has declared `dst` last, with an address of the value. -/
def Declares (first : Nat) (scope : Scope) (dst : Var) (w : World Callee) (v : Value)
    (after : Scope) : Prop :=
  ∃ a before, Represents w v a ∧ Spares first scope before ∧ after = (dst, a) :: before

theorem Declares.of_spares {second middle after dst} (h : Spares first scope middle)
    (hle : first ≤ second) (h' : Declares second middle dst w v after) :
    Declares first scope dst w v after := by
  obtain ⟨a, before, hv, hbefore, rfl⟩ := h'
  exact ⟨a, before, hv, h.trans hle hbefore, rfl⟩

/-- Code has made an operand available in `x`. -/
structure Holds (first : Nat) (scope : Scope) (x : Var) (w : World Callee) (v : Value)
    (after : Scope) : Prop where
  value : ∃ a, after.lookup x = some a ∧ Represents w v a
  spares : Spares first scope after

/-- The scope has addresses of the values of parameters. -/
def Provides (w : World Callee) (m : Module) (env : NodeId → Value) (scope : Scope)
    (params : List NodeId) : Prop :=
  ∀ id ∈ params, ∃ a, scope.lookup (paramVar m id) = some a ∧ Represents w (env id) a

namespace Provides

variable {w' : World Callee} {m : Module} {env : NodeId → Value} {scope after : Scope}
  {params more : List NodeId}

theorem of_subset (h : Provides w m env scope more) (hsub : params ⊆ more) :
    Provides w m env scope params := fun id hid => h id (hsub hid)

theorem of_spares {first : Nat} (h : Provides w m env scope params)
    (hspares : Spares first scope after) : Provides w m env after params := by
  intro id hid
  have hne : ∀ n, first ≤ n → paramVar m id ≠ .temp n := by
    intro n _ heq
    cases heq
  rw [hspares _ hne]
  exact h id hid

theorem mono (h : Provides w m env scope params) (hext : w.Extends w') :
    Provides w' m env scope params := by
  intro id hid
  obtain ⟨a, ha, hrep⟩ := h id hid
  exact ⟨a, ha, hrep.mono hext⟩

end Provides

/-! ## Instructions -/

theorem Follows.declare {x y} (h : Follows short w Represents x y) (dst : Var) {before : Scope}
    (hspares : Spares first scope before) :
    Follows short w (Declares first scope dst) x (do return (dst, ← y) :: before) := by
  rw [← bind_pure x]
  refine h.bind ?_
  intro w' v a _ hv
  exact .pure ⟨a, before, hv, hspares, rfl⟩

section

variable {globals : List Address} {scope : Scope} {a b : Address} {x : Var}

theorem execAll_append (first second : List Instr) (scope : Scope) :
    execAll globals call (first ++ second) scope =
      execAll globals call first scope >>= execAll globals call second := by
  induction first generalizing scope with
  | nil => simp [execAll]
  | cons i rest ih => simp [execAll, ih]

theorem execAll_singleton (i : Instr) (scope : Scope) :
    execAll globals call [i] scope = do return (i.dst, ← exec globals call i scope) :: scope := by
  simp [execAll]

theorem exec_apply {func arg : Var} (dst : Var) (hfunc : scope.lookup func = some a)
    (harg : scope.lookup arg = some b) :
    exec globals call (.apply dst func arg) scope = apply call a b := by
  simp only [exec, Scope.get_of_lookup hfunc, Scope.get_of_lookup harg, pure_bind]

theorem exec_call_one (dst : Var) (op : Intrinsic) (hx : scope.lookup x = some a) :
    exec globals call (.call dst op [x]) scope = callIntrinsic op [a] := by
  simp only [exec, List.mapM_cons, List.mapM_nil, Scope.get_of_lookup hx, pure_bind]

theorem exec_call_two {y : Var} (dst : Var) (op : Intrinsic) (hx : scope.lookup x = some a)
    (hy : scope.lookup y = some b) :
    exec globals call (.call dst op [x, y]) scope = callIntrinsic op [a, b] := by
  simp only [exec, List.mapM_cons, List.mapM_nil, Scope.get_of_lookup hx, Scope.get_of_lookup hy,
    pure_bind]

theorem exec_branch {yesVar noVar yes no} (dst : Var) (hx : scope.lookup x = some a) :
    exec globals call (.branch dst x yes yesVar no noVar) scope =
      truthy a >>= fun taken =>
        if taken then execAll globals call yes scope >>= fun after => after.get yesVar
        else execAll globals call no scope >>= fun after => after.get noVar := by
  simp only [exec, Scope.get_of_lookup hx, pure_bind]

end

/-! ## Closures with captures -/

section

variable {globals : List Address} (hcalls : Calls short init invoke call) {m : Module}
  {env : NodeId → Value} {dst : Var} {captures : List NodeId} {st : ConvertState}
include hcalls

theorem captureCode_follows {func f} (hne : captures ≠ []) (hinit : init.Extends w)
    (hfunc : scope.lookup func = some a) (hf : Represents w f a)
    (hscope : Provides w m env scope captures) :
    Follows short w (Declares st.nextTemp scope dst)
      (captures.foldlM (fun func id => Machine.apply invoke func (env id)) f)
      (execAll globals call (captureCode m dst func captures st).1 scope) := by
  induction captures generalizing w func st scope f a with
  | nil => exact absurd rfl hne
  | cons id rest ih =>
    obtain ⟨b, harg, hv⟩ := hscope id List.mem_cons_self
    have happly := apply_follows hcalls hinit hf hv
    cases rest with
    | nil =>
      simp only [captureCode, List.foldlM_cons, List.foldlM_nil, bind_pure]
      rw [execAll_singleton, exec_apply dst hfunc harg]
      exact happly.declare dst (Spares.refl _ scope)
    | cons other rest =>
      simp only [captureCode, execAll]
      rw [List.foldlM_cons, exec_apply _ hfunc harg]
      refine happly.bind ?_
      intro w' v b hext hv
      -- the closure so far is in a temporary, and that spares the captured parameters
      have hspares := (Spares.refl st.nextTemp scope).set_temp (Nat.le_refl _) b
      refine (ih (List.cons_ne_nil other rest) (hinit.trans hext) List.lookup_cons_self hv
        (((hscope.of_subset (List.subset_cons_self id _)).of_spares hspares).mono hext)).mono ?_
      intro w'' v' after _ hafter
      exact hafter.of_spares hspares (Nat.le_succ _)

theorem closureCode_follows (function : FunctionId) (arity : Nat) (hinit : init.Extends w)
    (hscope : Provides w m env scope captures) :
    Follows short w (Declares st.nextTemp scope dst)
      (captures.foldlM (fun func id => Machine.apply invoke func (env id))
        (.closure (.function function) arity []))
      (execAll globals call (closureCode m function arity dst captures st).1 scope) := by
  have hclosure : Follows short w Represents (pure (.closure (.function function) arity []))
      (allocClosure (.function function) (arity : Int)) :=
    .alloc fun _ hcell => .closure hcell (by simp) (.nil _)
  cases captures with
  | nil =>
    simp only [closureCode, execAll_singleton, exec, List.foldlM_nil]
    exact hclosure.declare dst (Spares.refl _ scope)
  | cons id rest =>
    simp only [closureCode, execAll, exec]
    rw [← pure_bind (Value.closure (.function function) arity []) fun f =>
      (id :: rest).foldlM (fun func id => Machine.apply invoke func (env id)) f]
    refine hclosure.bind ?_
    intro w' f a hext hf
    have hspares := (Spares.refl st.nextTemp scope).set_temp (Nat.le_refl _) a
    refine (captureCode_follows hcalls (List.cons_ne_nil id rest) (hinit.trans hext)
      List.lookup_cons_self hf ((hscope.of_spares hspares).mono hext)).mono ?_
    intro w'' v after _ hafter
    exact hafter.of_spares hspares (Nat.le_succ _)

end

/-! ## Terms -/

/-- The addresses of the global closures, in the order of their slots. -/
def Loaded (init : World Callee) (slots : Array GlobalSlot) (globals : List Address) : Prop :=
  List.Forall₂ (fun slot a => Represents init (.closure (.function slot.function) slot.arity []) a)
    slots.toList globals

theorem Loaded.get {slots globals} (h : Loaded init slots globals) {i : Nat} {slot}
    (hslot : slots[i]? = some slot) :
    ∃ a, globals[i]? = some a ∧
      Represents init (.closure (.function slot.function) slot.arity []) a := by
  rw [← Array.getElem?_toList] at hslot
  obtain ⟨hlt, rfl⟩ := List.getElem?_eq_some_iff.mp hslot
  have hlt' : i < globals.length := h.length_eq ▸ hlt
  exact ⟨globals[i], List.getElem?_eq_getElem hlt', List.Forall₂.get h hlt hlt'⟩

/-- The code of a term, whatever it is made into, follows the evaluation of the term. -/
def Faithful (short : Prop) (init : World Callee) (invoke : Callee → List Value → RunM Value)
    (call : Callee → List Address → CodeM Address) (slots : Array GlobalSlot)
    (globals : List Address) (direct : Bool) (m : Module) (number : String → Nat)
    (env : NodeId → Value) (t : Term) : Prop :=
  ∀ (w : World Callee) (dst : Var) (st : ConvertState) (scope : Scope), init.Extends w →
    Numbers number (t.table st.constructors) → Provides w m env scope t.params →
      (∀ text ∈ t.texts, visible text = text) →
        Follows short w (Declares st.nextTemp scope dst) (t.eval number slots invoke env)
          (execAll globals call (t.code direct m dst st).1 scope)

section

variable {slots : Array GlobalSlot} {globals : List Address} {direct : Bool} {m : Module}
  {number : String → Nat} {env : NodeId → Value} {st : ConvertState} {t : Term} {dst : Var}

theorem operandCode_follows
    (h : Faithful short init invoke call slots globals direct m number env t)
    (hinit : init.Extends w) (hnum : Numbers number (t.table st.constructors))
    (hscope : Provides w m env scope t.params) (htexts : ∀ text ∈ t.texts, visible text = text) :
    Follows short w (Holds st.nextTemp scope (operandCode m t (t.code direct m) st).1.2)
      (t.eval number slots invoke env)
      (execAll globals call (operandCode m t (t.code direct m) st).1.1 scope) := by
  unfold operandCode
  split
  · rename_i id
    simp only [execAll]
    exact .pure ⟨hscope id (by simp [Term.params]), Spares.refl _ scope⟩
  · refine (h w (.temp st.nextTemp) st.next scope hinit hnum hscope htexts).mono ?_
    rintro w' v _ _ ⟨a, before, hv, hbefore, rfl⟩
    refine ⟨⟨a, List.lookup_cons_self, hv⟩, ?_⟩
    exact ((Spares.refl _ scope).trans (Nat.le_succ _) hbefore).set_temp (Nat.le_refl _) a

theorem pairCode_follows {one two last} {k : Value → Value → RunM Value}
    (hone : Faithful short init invoke call slots globals direct m number env one)
    (htwo : Faithful short init invoke call slots globals direct m number env two)
    (hdst : ∀ x y, (last x y).dst = dst) (hlast : ∀ {w scope x y a b v u},
      init.Extends w → scope.lookup x = some a → scope.lookup y = some b → Represents w v a →
        Represents w u b → Follows short w Represents (k v u) (exec globals call (last x y) scope))
    (hinit : init.Extends w) (hnum : Numbers number (two.table (one.table st.constructors)))
    (hscope : Provides w m env scope (one.params ++ two.params))
    (htexts : ∀ text ∈ one.texts ++ two.texts, visible text = text) :
    Follows short w (Declares st.nextTemp scope dst)
      (one.eval number slots invoke env >>= fun v =>
        two.eval number slots invoke env >>= fun u => k v u)
      (execAll globals call (pairCode (operandCode m one (one.code direct m))
        (operandCode m two (two.code direct m)) last st).1 scope) := by
  unfold pairCode
  simp only [execAll_append, bind_assoc]
  refine (operandCode_follows hone hinit (hnum.of_prefix (two.prefix_table _))
    (hscope.of_subset (List.subset_append_left _ _))
    fun text htext => htexts text (List.mem_append_left _ htext)).bind ?_
  intro w₁ v middle hext₁ hmiddle
  obtain ⟨hcount, hnext⟩ := Flat.operandCode_counts m one (Flat.code_counts direct m one) st
  refine (operandCode_follows htwo (hinit.trans hext₁) (by rw [hcount]; exact hnum)
    (((hscope.of_subset (List.subset_append_right _ _)).of_spares hmiddle.spares).mono hext₁)
    fun text htext => htexts text (List.mem_append_right _ htext)).bind ?_
  intro w₂ u after hext₂ hafter
  -- the second operand leaves the variable of the first one alone
  obtain ⟨a, ha, hv⟩ := hmiddle.value
  obtain ⟨b, hb, hu⟩ := hafter.value
  have hfirst := hafter.spares _ (Flat.operandCode_var direct m one st)
  rw [execAll_singleton, hdst]
  exact (hlast ((hinit.trans hext₁).trans hext₂) (hfirst.trans ha) hb (hv.mono hext₂) hu).declare
    dst (hmiddle.spares.trans hnext hafter.spares)

/-- A block made from a term follows the evaluation of the term. -/
theorem Faithful.execBlock (h : Faithful short init invoke call slots globals direct m number env t)
    (dst : Var) (st : ConvertState) (scope : Scope) (hinit : init.Extends w)
    (hnum : Numbers number (t.table st.constructors)) (hscope : Provides w m env scope t.params)
    (htexts : ∀ text ∈ t.texts, visible text = text) :
    Follows short w Represents (t.eval number slots invoke env)
      (execBlock globals call ⟨(t.code direct m dst st).1, dst⟩ scope) := by
  rw [← bind_pure (t.eval number slots invoke env)]
  refine (h w dst st scope hinit hnum hscope htexts).bind ?_
  rintro w' v _ _ ⟨a, before, hv, _, rfl⟩
  rw [Scope.get_of_lookup List.lookup_cons_self]
  exact .pure hv

theorem conCode_follows {name : String} (scope : Scope)
    (hnum : Numbers number ((Term.con name).table st.constructors)) :
    Follows short w (Declares st.nextTemp scope dst) (pure (Flat.conValue number name))
      (execAll globals call (Flat.conCode name dst st).1 scope) := by
  rw [Flat.conCode_eq hnum, execAll_singleton]
  unfold Flat.conValue
  have hspares := Spares.refl st.nextTemp scope
  by_cases htrue : name = "True"
  · rw [if_pos htrue, if_pos htrue]
    exact (Follows.alloc fun _ => .int).declare dst hspares
  by_cases hfalse : name = "False"
  · rw [if_neg htrue, if_pos hfalse, if_neg htrue, if_pos hfalse]
    exact (Follows.alloc fun _ => .int).declare dst hspares
  · rw [if_neg htrue, if_neg hfalse, if_neg htrue, if_neg hfalse]
    exact (Follows.alloc fun _ => .con).declare dst hspares

/-- Native code of a term, with or without direct calls of intrinsics, follows the evaluation of the
term. -/
theorem code_follows (hcalls : Calls short init invoke call)
    (hinvoke : ∀ op args, invoke (.intrinsic op) args = runIntrinsic op args)
    (hglobals : Loaded init slots globals) (t : Term) :
    Faithful short init invoke call slots globals direct m number env t := by
  induction t using Term.codeInduction with
  | int value =>
    intro w dst st scope hinit hnum hscope htexts
    simp only [Term.code, execAll_singleton, exec]
    exact (Follows.alloc fun _ => .int).declare dst (Spares.refl _ scope)
  | str text =>
    intro w dst st scope hinit hnum hscope htexts
    have hvisible := htexts text (List.mem_singleton_self text)
    simp only [Term.code, execAll_singleton, exec]
    exact (Follows.alloc fun _ hcell => .str hcell hvisible).declare dst (Spares.refl _ scope)
  | con name =>
    intro w dst st scope hinit hnum hscope htexts
    exact conCode_follows scope hnum
  | param node =>
    intro w dst st scope hinit hnum hscope htexts
    obtain ⟨a, ha, hv⟩ := hscope node (by simp [Term.params])
    simp only [Term.code, execAll_singleton, exec, Scope.get_of_lookup ha, pure_bind]
    exact .pure ⟨a, scope, hv, Spares.refl _ scope, rfl⟩
  | prim op =>
    intro w dst st scope hinit hnum hscope htexts
    simp only [Term.code, execAll_singleton, exec]
    exact (Follows.alloc fun _ hcell => .closure hcell (by simp) (.nil _)).declare dst
      (Spares.refl _ scope)
  | global slot =>
    intro w dst st scope hinit hnum hscope htexts
    simp only [Term.code, execAll_singleton, exec, Term.eval]
    cases hslot : slots[slot]? with
    | none => exact .of_unsaid rfl _
    | some entry =>
      obtain ⟨a, ha, hrep⟩ := hglobals.get hslot
      simp only [loadGlobal, ha, pure_bind]
      exact .pure ⟨a, scope, hrep.mono hinit, Spares.refl _ scope, rfl⟩
  | closure function arity captures =>
    intro w dst st scope hinit hnum hscope htexts
    exact closureCode_follows hcalls function arity hinit hscope
  | inlined value ih =>
    intro w dst st scope hinit hnum hscope htexts
    exact ih w dst st scope hinit hnum hscope htexts
  | app func arg ihFunc ihArg ihFirst =>
    intro w dst st scope hinit hnum hscope htexts
    apply Term.code_app_cases (motive := fun made =>
      Follows short w (Declares st.nextTemp scope dst)
        ((Term.app func arg).eval number slots invoke env) (execAll globals call made.1 scope))
    · refine pairCode_follows ihFunc ihArg (fun _ _ => rfl) ?_ hinit hnum hscope htexts
      intro w scope x y a b f v hinit hx hy hf hv
      rw [exec_apply dst hx hy]
      exact apply_follows hcalls hinit hf hv
    · rintro op rfl harity
      -- the closure of the intrinsic is not made at all
      have heval : (Term.app (.prim op) arg).eval number slots invoke env =
          arg.eval number slots invoke env >>= fun v => runIntrinsic op [v] := by
        simp only [Term.eval, pure_bind, Flat.apply_intrinsic_one harity, hinvoke]
      rw [heval, execAll_append]
      refine (operandCode_follows ihArg hinit hnum hscope htexts).bind ?_
      intro w' v after _ hafter
      obtain ⟨a, ha, hv⟩ := hafter.value
      rw [execAll_singleton, exec_call_one dst op ha]
      exact (callIntrinsic_follows op (.cons hv .nil)).declare dst hafter.spares
    · rintro op first rfl harity
      have heval : (Term.app (.app (.prim op) first) arg).eval number slots invoke env =
          first.eval number slots invoke env >>= fun v =>
            arg.eval number slots invoke env >>= fun u => runIntrinsic op [v, u] := by
        simp only [Term.eval, pure_bind, bind_assoc, Flat.apply_intrinsic_first harity,
          Flat.apply_intrinsic_second harity, hinvoke]
      rw [heval]
      refine pairCode_follows (ihFirst op first rfl) ihArg (fun _ _ => rfl) ?_ hinit hnum hscope
        htexts
      intro w scope x y a b v u _ hx hy hv hu
      rw [exec_call_two dst op hx hy]
      exact callIntrinsic_follows op (.cons hv (.cons hu .nil))
  | cond test onTrue onFalse ihTest ihYes ihNo =>
    intro w dst st scope hinit hnum hscope htexts
    simp only [Term.code, execAll_append]
    obtain ⟨hcount, hle⟩ := Flat.operandCode_counts m test (Flat.code_counts direct m test) st
    have htest := operandCode_follows ihTest hinit
      (hnum.of_prefix ((onTrue.prefix_table _).trans (onFalse.prefix_table _)))
      (hscope.of_subset (by simp [Term.params])) fun text htext => htexts text (by
        simp [Term.texts, htext])
    refine htest.bind ?_
    generalize operandCode m test (test.code direct m) st = made at hcount hle ⊢
    intro w₁ v middle hext₁ hmiddle
    have hyescount :=
      (Flat.code_counts direct m onTrue (.temp made.2.nextTemp) made.2.next).constructors
    obtain ⟨a, ha, hv⟩ := hmiddle.value
    rw [execAll_singleton, exec_branch dst ha]
    refine Follows.declare ?_ dst hmiddle.spares
    refine (truthy_follows hv).bind ?_
    rintro w₂ taken _ hext₂ rfl
    have hext := hext₁.trans hext₂
    cases taken with
    | true =>
      refine ihYes.execBlock _ made.2.next middle (hinit.trans hext) ?_ ?_ ?_
      · rw [ConvertState.next, hcount]
        exact hnum.of_prefix (onFalse.prefix_table _)
      · exact ((hscope.of_subset (by simp [Term.params])).of_spares hmiddle.spares).mono hext
      · exact fun text htext => htexts text (by simp [Term.texts, htext])
    | false =>
      refine ihNo.execBlock _ (Flat.ConvertState.next _) middle (hinit.trans hext) ?_ ?_ ?_
      · rw [ConvertState.next, hyescount, ConvertState.next, hcount]
        exact hnum
      · exact ((hscope.of_subset (by simp [Term.params])).of_spares hmiddle.spares).mono hext
      · exact fun text htext => htexts text (by simp [Term.texts, htext])

end

end Native

end Lamina
