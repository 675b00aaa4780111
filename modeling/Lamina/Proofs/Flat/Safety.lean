import Lamina.Proofs.Flat.Plan
import Lamina.Proofs.Machine.Intrinsic

/-!
# Runs of an outline are safe

Every value of a run is well made: a closure has the arity of what it calls and fewer arguments than
that (`Outline.Proper`). So a call never has too few or too many arguments, and never goes to a
routine that is not there. What can go wrong is what a program can do wrong (`Outline.Fair`).
-/

namespace Lamina.Flat

open Lamina.Core (NodeId Module)
open Lamina.Machine (Value RunM RunError Ends Execution apply runIntrinsic condition
  callIntrinsic)

namespace Outline

variable {callee : Callee} {arity : Nat} {args : List Value} {last func : Value} {op : Intrinsic}
  {env : NodeId → Value}

/-- The values of a run. -/
inductive Proper (o : Outline) : Value → Prop
  | int (n : Int64) : Proper o (.int n)
  | str (text : String) : Proper o (.str text)
  | con (tag : Nat) : Proper o (.con tag [])
  | function {i r args} (hroutine : o.routines[i]? = some r) (hlen : args.length < r.scope.length)
      (hargs : ∀ v ∈ args, Proper o v) : Proper o (.closure (.function i) r.scope.length args)
  | intrinsic {op : Intrinsic} {args : List Value} (hlen : args.length < op.arity)
      (hargs : ∀ v ∈ args, Proper o v) : Proper o (.closure (.intrinsic op) op.arity args)

/-- The errors of a run: those that a program is to blame for, and too many parameters. -/
def Fair (o : Outline) : RunError → Prop
  | .unsupportedArity arity => maxArity < arity ∧ ∃ r ∈ o.routines, r.scope.length = arity
  | .arityMismatch .. => False
  | .undefinedVariable _ => False
  | .unknownFunction _ => False
  | .unknownGlobal _ => False
  | _ => True

/-- Calls with all their arguments end well. -/
def Calls (o : Outline) (invoke : Callee → List Value → RunM Value) : Prop :=
  ∀ {callee args last},
    o.Proper (.closure callee (args.length + 1) args) → o.Proper last →
      Ends o.Proper o.Fair (invoke callee (args ++ [last]))

variable {o : Outline} {invoke : Callee → List Value → RunM Value}

theorem Proper.of_plain {v : Value} (h : v.Plain) : o.Proper v := by
  cases v with
  | int n => exact .int n
  | str text => exact .str text
  | con tag fields =>
    cases h
    exact .con 0
  | closure callee arity args => cases h

theorem Proper.conValue (number : String → Nat) (name : String) :
    o.Proper (conValue number name) := by
  unfold Flat.conValue
  split
  · exact .int 1
  · split
    · exact .int 0
    · exact .con _

/-- A closure has room for an argument, and takes a proper one. -/
theorem Proper.push (h : o.Proper (.closure callee arity args)) (hlast : o.Proper last)
    (hlen : args.length + 1 < arity) : o.Proper (.closure callee arity (args ++ [last])) := by
  have hall : (∀ v ∈ args, o.Proper v) → ∀ v ∈ args ++ [last], o.Proper v := fun hargs =>
    List.forall_mem_append.mpr ⟨hargs, List.forall_mem_singleton.mpr hlast⟩
  cases h with
  | function hroutine _ hargs =>
    refine .function hroutine ?_ (hall hargs)
    rw [List.length_append, List.length_singleton]
    exact hlen
  | intrinsic _ hargs =>
    refine .intrinsic ?_ (hall hargs)
    rw [List.length_append, List.length_singleton]
    exact hlen

theorem Proper.length_lt (h : o.Proper (.closure callee arity args)) : args.length < arity := by
  cases h with
  | function _ hlen _ => exact hlen
  | intrinsic hlen _ => exact hlen

/-- Only a routine has more parameters than a call can have arguments. -/
theorem Proper.fair_of_maxArity_lt (h : o.Proper (.closure callee arity args))
    (hmax : maxArity < arity) : o.Fair (.unsupportedArity arity) := by
  cases h with
  | function hroutine _ _ => exact ⟨hmax, _, List.mem_of_getElem? hroutine, rfl⟩
  | intrinsic => exact absurd hmax (Nat.not_lt.mpr (Machine.arity_le_maxArity _))

theorem apply_safe (hcalls : o.Calls invoke) {arg : Value} (hfunc : o.Proper func)
    (harg : o.Proper arg) : Ends o.Proper o.Fair (apply invoke func arg) := by
  cases func with
  | closure callee arity args =>
    -- fewer arguments than the arity before, so at most as many with one more
    have hlen := hfunc.length_lt
    simp only [apply, List.length_append, List.length_singleton]
    split
    · exact .pure (hfunc.push harg ‹_›)
    · split
      · rename_i hmax
        exact .throw (hfunc.fair_of_maxArity_lt (hmax.resolve_left (Nat.ne_of_gt (by omega))))
      · obtain rfl : arity = args.length + 1 := by omega
        exact hcalls hfunc harg
  | _ => exact .throw trivial

theorem runIntrinsic_safe (hlen : args.length = op.arity) :
    Ends o.Proper o.Fair (runIntrinsic op args) := by
  have hends := Machine.callIntrinsic_ends hlen
  unfold runIntrinsic
  cases h : callIntrinsic op args with
  | error e =>
    rw [h] at hends
    refine .throw ?_
    rcases hends with rfl | ⟨expected, found, rfl⟩ <;> trivial
  | ok answer =>
    rw [h] at hends
    exact .modify_bind (.pure (.of_plain hends))

theorem condition_safe (v : Value) : Ends (fun _ => True) o.Fair (condition v) := by
  cases v with
  | int n => exact .pure trivial
  | _ => exact .throw trivial

/-! ## Terms -/

/-- A term loads globals and makes closures of routines that are there, with their arity. -/
def Fits (o : Outline) : Term → Prop
  | .global slot => ∃ g r, o.globals[slot]? = some g ∧ o.routines[g.function]? = some r ∧
      r.scope.length = g.arity ∧ 0 < g.arity
  | .closure function arity _ => ∃ r, o.routines[function]? = some r ∧ r.scope.length = arity ∧
      0 < arity
  | .inlined value => o.Fits value
  | .app func arg => o.Fits func ∧ o.Fits arg
  | .cond test onTrue onFalse => o.Fits test ∧ o.Fits onTrue ∧ o.Fits onFalse
  | _ => True

theorem captures_safe (hcalls : o.Calls invoke) {captures : List NodeId}
    (henv : ∀ id ∈ captures, o.Proper (env id)) (hfunc : o.Proper func) :
    Ends o.Proper o.Fair
      (captures.foldlM (fun func id => apply invoke func (env id)) func) := by
  induction captures generalizing func with
  | nil => exact .pure hfunc
  | cons id rest ih =>
    rw [List.foldlM_cons]
    refine (apply_safe hcalls hfunc (henv id List.mem_cons_self)).bind fun v hv => ?_
    exact ih (fun node hnode => henv node (List.mem_cons_of_mem id hnode)) hv

/-- A term whose parameters have proper values ends well. -/
theorem eval_safe (number : String → Nat) (hcalls : o.Calls invoke) {t : Term} (hfits : o.Fits t)
    (henv : ∀ id ∈ t.params, o.Proper (env id)) :
    Ends o.Proper o.Fair (t.eval number o.globals invoke env) := by
  induction t with
  | int value => exact .pure (.int value)
  | str text => exact .pure (.str text)
  | con name => exact .pure (.conValue number name)
  | param node => exact .pure (henv node (List.mem_singleton_self node))
  | prim op => exact .pure (.intrinsic (Machine.arity_pos op) nofun)
  | global slot =>
    obtain ⟨g, r, hslot, hroutine, hlen, hpos⟩ := hfits
    simp only [Term.eval, hslot]
    rw [← hlen] at hpos ⊢
    exact .pure (.function hroutine hpos nofun)
  | closure function arity captures =>
    obtain ⟨r, hroutine, rfl, hpos⟩ := hfits
    exact captures_safe hcalls henv (.function hroutine hpos nofun)
  | inlined value ih => exact ih hfits henv
  | app func arg ihFunc ihArg =>
    refine (ihFunc hfits.1 fun id hid => henv id (List.mem_append_left _ hid)).bind fun f hf => ?_
    refine (ihArg hfits.2 fun id hid => henv id (List.mem_append_right _ hid)).bind fun a ha => ?_
    exact apply_safe hcalls hf ha
  | cond test onTrue onFalse ihTest ihYes ihNo =>
    obtain ⟨htest, hyes, hno⟩ := hfits
    refine (ihTest htest fun id hid => henv id
      (List.mem_append_left _ (List.mem_append_left _ hid))).bind fun v _ => ?_
    refine (condition_safe v).bind fun b _ => ?_
    split
    · exact ihYes hyes fun id hid => henv id
        (List.mem_append_left _ (List.mem_append_right _ hid))
    · exact ihNo hno fun id hid => henv id (List.mem_append_right _ hid)

/-! ## Calls and runs -/

/-- What keeps the calls of an outline safe. -/
structure Sound (o : Outline) : Prop extends o.Scoped where
  fits : ∀ r ∈ o.routines, o.Fits r.body
  fits_main : o.Fits o.main

theorem bound_proper {scope} (hlen : args.length = scope.length) (hargs : ∀ v ∈ args, o.Proper v)
    {id} (hid : id ∈ scope) : o.Proper (bound scope args id) := by
  have hsame : List.Forall₂ (fun v _ => o.Proper v) args args := List.forall₂_same.mpr hargs
  obtain ⟨v, _, hv, _, hproper⟩ := lookup_zip_reverse hsame (Nat.le_of_eq hlen.symm) hid
  rw [bound, hv]
  exact hproper

/-- A closure with one argument missing calls its routine with as many as it has parameters. -/
theorem called_safe {i next} (hfunc : o.Proper (.closure (.function i) (args.length + 1) args))
    (hlast : o.Proper last) (hnext : ∀ r ∈ o.routines, (args ++ [last]).length = r.scope.length →
      (∀ v ∈ args ++ [last], o.Proper v) → Ends o.Proper o.Fair (next r)) :
    Ends o.Proper o.Fair (o.called i (args ++ [last]) >>= next) := by
  generalize harity : args.length + 1 = arity at hfunc
  cases hfunc with
  | function hroutine hlen hargs =>
    have hall : (args ++ [last]).length = _ := List.length_append.trans harity
    simp only [called, hroutine, hall, if_true, pure_bind]
    exact hnext _ (List.mem_of_getElem? hroutine) hall
      (List.forall_mem_append.mpr ⟨hargs, List.forall_mem_singleton.mpr hlast⟩)

theorem call_intrinsic_safe (number : String → Nat) (limit free : Nat)
    (hfunc : o.Proper (.closure (.intrinsic op) (args.length + 1) args)) :
    Ends o.Proper o.Fair (o.call number limit free (.intrinsic op) (args ++ [last])) := by
  rw [call_intrinsic]
  generalize harity : args.length + 1 = arity at hfunc
  cases hfunc with
  | intrinsic => exact runIntrinsic_safe (List.length_append.trans harity)

/-- Calls end well however many more may nest. -/
theorem call_safe (number : String → Nat) (hsound : o.Sound) (limit free : Nat) :
    o.Calls (o.call number limit free) := by
  -- inside a call one level less is free
  induction free with
  | zero =>
    intro callee args last hfunc hlast
    cases callee with
    | intrinsic op => exact call_intrinsic_safe number limit 0 hfunc
    | function i => exact called_safe hfunc hlast fun _ _ _ _ => .throw trivial
  | succ free ih =>
    intro callee args last hfunc hlast
    cases callee with
    | intrinsic op => exact call_intrinsic_safe number limit (free + 1) hfunc
    | function i =>
      refine called_safe hfunc hlast fun r hr hlen hargs => .modify_bind ?_
      exact eval_safe number ih (hsound.fits r hr)
        fun id hid => bound_proper hlen hargs (hsound.routine r hr hid)

theorem eval_main_safe (number : String → Nat) (hsound : o.Sound) (limit : Nat) :
    Ends o.Proper o.Fair (o.eval number limit) :=
  eval_safe number (call_safe number hsound limit limit) hsound.fits_main
    fun _ hid => nomatch hsound.main hid

/-- A run that fails does so for a fair reason. -/
theorem run_fair (number : String → Nat) (hsound : o.Sound) {limit e}
    (h : o.run number limit = .error e) : o.Fair e := by
  have hends := eval_main_safe number hsound limit .start
  simp only [run, ExceptT.run, StateT.run] at h
  rcases heval : o.eval number limit .start with ⟨e' | v, st⟩ <;> rw [heval] at h hends <;> cases h
  exact hends

/-! ## The outline of a module -/

section

variable {p : Plan} {entry id : NodeId}

theorem Covers.routine_length (h : o.Covers p entry) (shaped : p.module.Shaped) {i : FunctionId}
    (hi : p.function? id = some i) :
    ∃ r, o.routines[i]? = some r ∧ r.scope.length = p.arity id ∧ 0 < p.arity id := by
  obtain ⟨r, hr, hof⟩ := h.routine hi
  obtain ⟨params, body, hkind, _⟩ := hof.body
  exact ⟨r, hr, hof.scope_length,
    Nat.add_pos_right _ (List.length_pos_iff.mpr (shaped.params_ne_nil hkind))⟩

theorem Covers.fits_global (h : o.Covers p entry) (shaped : p.module.Shaped) (settled : p.Settled)
    {slot : Nat} (hslot : p.slot? id = some slot) : o.Fits (.global slot) := by
  obtain ⟨g, hg, hi, harity⟩ := h.slot hslot
  obtain ⟨r, hr, hlen, hpos⟩ := h.routine_length shaped hi
  have heq : p.arity id = g.arity := by
    rw [harity, Plan.arity, settled.captures_of_slot hslot, List.length_nil, Nat.zero_add]
  exact ⟨g, r, hg, hr, hlen.trans heq, heq ▸ hpos⟩

mutual

theorem Covers.fits_expands (h : o.Covers p entry) (shaped : p.module.Shaped) (settled : p.Settled)
    {scope id t} :
    Expands p scope id t → o.Fits t
  | .int _ | .str _ | .con _ | .param _ _ | .prim _ => trivial
  | .closure _ hi _ => h.routine_length shaped hi
  | .reference _ htarget => h.fits_refers shaped settled htarget
  | .app _ hfunc harg => ⟨h.fits_expands shaped settled hfunc, h.fits_expands shaped settled harg⟩
  | .cond _ htest htrue hfalse => ⟨h.fits_expands shaped settled htest,
      h.fits_expands shaped settled htrue, h.fits_expands shaped settled hfalse⟩

theorem Covers.fits_refers (h : o.Covers p entry) (shaped : p.module.Shaped) (settled : p.Settled)
    {scope target t} : Refers p scope target t → o.Fits t
  | .param _ _ | .prim _ => trivial
  | .global _ hslot => h.fits_global shaped settled hslot
  | .closure _ hi _ => h.routine_length shaped hi
  | .inlined htarget => (h.fits_expands shaped settled htarget :)

end

theorem Covers.sound (h : o.Covers p entry) (shaped : p.module.Shaped) (settled : p.Settled) :
    o.Sound := by
  refine ⟨h.mentions_scope, ?_, h.fits_refers shaped settled h.main⟩
  intro r hr
  obtain ⟨id, hof⟩ := h.node hr
  obtain ⟨_, _, _, hbody⟩ := hof.body
  exact h.fits_expands shaped settled hbody

end

end Outline

end Lamina.Flat
