import Lamina.Pipeline
import Lamina.Proofs.Except
import Lamina.Proofs.Lookup
import Lamina.Proofs.Machine.Intrinsic
import Lamina.Proofs.Machine.Steps

/-!
# Every run ends

A program whose ids are in range never runs into an id that does not exist: the stack stays sound
(`step_sound`). So every run ends with a result or one of the errors that a program can be told of,
and never has more calls active than its limit allows.
-/

namespace Lamina.Machine

open Lamina.Flat (Var Callee Instr Function FunctionId Program walkInstrs)

variable {p : Program} {limit : Nat} {s : Stack} {frame : Frame} {st : State}

/-- Does a callee exist? -/
def calleeIn (p : Program) : Callee → Bool
  | .function id => id < p.functions.size
  | .intrinsic _ => true

/-- Do the ids that an instruction mentions exist? -/
def idsIn (p : Program) : Instr → Bool
  | .load _ slot => slot < p.globals.size
  | .closure _ callee _ => calleeIn p callee
  | _ => true

/-- Do all ids that a program mentions exist? -/
def inRange (p : Program) : Bool :=
  p.globals.toList.all (calleeIn p <| .function ·.function) && p.walk.all (idsIn p)

/-- The functions that a value mentions exist. -/
inductive Value.Known (p : Program) : Value → Prop
  | int (n : Int64) : Known p (.int n)
  | str (text : String) : Known p (.str text)
  | con (tag : Nat) (fields : List Value) : Known p (.con tag fields)
  | closure {callee arity args} (hcallee : calleeIn p callee) (hargs : ∀ v ∈ args, v.Known p) :
      Known p (.closure callee arity args)

/-- All ids in a block that is being run exist. -/
structure Activation.Known (p : Program) (a : Activation) : Prop where
  frame : ∀ entry ∈ a.frame, entry.2.Known p
  instrs : ∀ i ∈ walkInstrs a.instrs, idsIn p i

/-- All ids on a stack exist, and no more calls are active than the limit allows. -/
structure Stack.Sound (p : Program) (limit : Nat) (s : Stack) : Prop where
  current : s.current.Known p
  waiting : ∀ entry ∈ s.waiting, entry.2.Known p
  active : s.waiting.length ≤ limit

/-- The errors that are not about an id that does not exist. -/
def Regular (e : RunError) : Prop :=
  (∀ id, e ≠ .unknownFunction id) ∧ ∀ slot, e ≠ .unknownGlobal slot

theorem Regular.unsupportedArity (arity : Nat) : Regular (.unsupportedArity arity) := ⟨nofun, nofun⟩

theorem Regular.stackOverflow (limit : Nat) : Regular (.stackOverflow limit) := ⟨nofun, nofun⟩

theorem Regular.notAClosure (kind : String) : Regular (.notAClosure kind) := ⟨nofun, nofun⟩

theorem Activation.Known.set {a : Activation} (h : a.Known p) {v : Value} (hv : v.Known p)
    (dst : Var) : (a.set dst v).Known p :=
  ⟨List.forall_mem_cons.mpr ⟨hv, h.frame⟩, h.instrs⟩

theorem Frame.get_known (h : ∀ entry ∈ frame, entry.2.Known p) (x : Var) :
    Ends (Value.Known p) Regular (frame.get x) := by
  unfold Frame.get
  split
  · rename_i hlookup
    exact .pure (h _ (mem_of_lookup hlookup))
  · exact .throw ⟨nofun, nofun⟩

theorem mapM_get_known (h : ∀ entry ∈ frame, entry.2.Known p) (vars : List Var) :
    Ends (fun _ => True) Regular (vars.mapM frame.get) := by
  induction vars with
  | nil => exact .pure trivial
  | cons x rest ih =>
    rw [List.mapM_cons]
    exact .bind (Frame.get_known h x) fun _ _ => .bind ih fun _ _ => .pure trivial

theorem condition_known (v : Value) : Ends (fun _ => True) Regular (condition v) := by
  cases v with
  | int n => exact .pure trivial
  | _ => exact .throw ⟨nofun, nofun⟩

theorem runIntrinsic_known (op : Intrinsic) (args : List Value) :
    Ends (Value.Known p) Regular (runIntrinsic op args) := by
  unfold runIntrinsic
  rcases callIntrinsic_cases op args with ⟨⟨v, text⟩, hcall, hplain⟩ | ⟨e, hcall, he⟩ <;> rw [hcall]
  · refine .modify_bind (.pure ?_)
    cases v with
    | int n => exact .int n
    | str text => exact .str text
    | con tag fields => exact .con tag fields
    | closure => cases hplain
  · refine .throw ?_
    rcases he with (rfl | ⟨_, _, rfl⟩) | ⟨_, _, rfl⟩ <;> exact ⟨nofun, nofun⟩

theorem calledFunction_known {id : FunctionId} (h : calleeIn p (.function id)) (args : List Value) :
    Ends (· ∈ p.functions) Regular (calledFunction p id args) := by
  have hid : id < p.functions.size := of_decide_eq_true h
  simp only [calledFunction, Array.getElem?_eq_getElem hid]
  split
  · exact .pure (Array.getElem_mem hid)
  · exact .throw ⟨nofun, nofun⟩

/-- An application comes to a known value, or to the call of a function of the program. -/
theorem applied_known {depth func arg} (hfunc : func.Known p) (harg : arg.Known p) :
    Ends (fun
        | .value v => v.Known p
        | .call f args _ => f ∈ p.functions ∧ ∀ v ∈ args, v.Known p)
      Regular (applied p limit depth func arg) := by
  cases hfunc with
  | @closure callee arity args hcallee hargs =>
    have hall : ∀ v ∈ args ++ [arg], v.Known p :=
      List.forall_mem_append.mpr ⟨hargs, List.forall_mem_singleton.mpr harg⟩
    simp only [applied]
    split
    · exact .pure (.closure hcallee hall)
    · split
      · exact .throw (.unsupportedArity arity)
      · cases callee with
        | intrinsic op => exact .bind (runIntrinsic_known op _) fun v hv => .pure hv
        | function id =>
          refine .bind (calledFunction_known hcallee _) fun f hf => ?_
          split
          · exact .modify_bind (.pure ⟨hf, hall⟩)
          · exact .throw (.stackOverflow limit)
  | _ => exact .throw (.notAClosure _)

theorem Stack.Sound.call (hp : inRange p) (h : s.Sound p limit) {f} (hf : f ∈ p.functions) {args}
    (hargs : ∀ v ∈ args, v.Known p) (hlt : s.waiting.length < limit) (dst : Var) :
    (Stack.mk ⟨callFrame f args, f.body.instrs, f.body.result⟩
      ((dst, s.current) :: s.waiting)).Sound p limit := by
  refine ⟨⟨fun entry hentry => ?_, fun i hi => ?_⟩,
    List.forall_mem_cons.mpr ⟨h.current, h.waiting⟩, hlt⟩
  · exact hargs _ (List.of_mem_zip (List.mem_reverse.mp hentry)).2
  · refine List.all_eq_true.mp (Bool.and_eq_true_iff.mp hp).2 i ?_
    exact List.mem_append_left _ (List.mem_flatMap.mpr ⟨f, hf.val, hi⟩)

/-- An instruction leads from a sound stack to a sound stack, or fails with a regular error. -/
theorem advance_sound (hp : inRange p) {rest waiting} (h : (Stack.mk rest waiting).Sound p limit)
    {i : Instr} (hids : ∀ j ∈ i.walk, idsIn p j) :
    Ends (Stack.Sound p limit) Regular (advance p limit rest waiting i) := by
  have hself : idsIn p i := hids i (by cases i <;> simp [Flat.Instr.walk])
  have hset (dst : Var) {v : Value} (hv : v.Known p) :
      (Stack.mk (rest.set dst v) waiting).Sound p limit :=
    ⟨h.current.set hv dst, h.waiting, h.active⟩
  have hget := Frame.get_known h.current.frame
  cases i with
  | int dst n => exact .pure (hset dst (.int n))
  | str dst text => exact .pure (hset dst (.str text))
  | con dst tag name => exact .pure (hset dst (.con tag []))
  | closure dst callee arity => exact .pure (hset dst (.closure hself (List.forall_mem_nil _)))
  | copy dst src =>
    simp only [advance, exec, bind_assoc, pure_bind]
    exact .bind (hget src) fun v hv => .pure (hset dst hv)
  | load dst slot =>
    have hslot : slot < p.globals.size := of_decide_eq_true hself
    have hglobal := List.all_eq_true.mp (Bool.and_eq_true_iff.mp hp).1 _
      (Array.getElem_mem_toList hslot)
    simp only [advance, exec, Array.getElem?_eq_getElem hslot]
    exact .pure (hset dst (.closure hglobal (List.forall_mem_nil _)))
  | call dst op args =>
    simp only [advance, exec, bind_assoc, pure_bind]
    exact .bind (mapM_get_known h.current.frame args) fun values _ =>
      .bind (runIntrinsic_known op values) fun v hv => .pure (hset dst hv)
  | apply dst func arg =>
    refine .bind (hget func) fun func hfunc => .bind (hget arg) fun arg harg =>
      .bind (applied_known hfunc harg) fun a ha => .pure ?_
    cases a with
    | value v => exact hset dst ha
    | call f args hlt => exact h.call hp ha.1 ha.2 hlt dst
  | branch dst cond onTrue trueResult onFalse falseResult =>
    rw [Flat.Instr.walk, List.forall_mem_cons, List.forall_mem_append] at hids
    refine .bind (hget cond) fun v _ => .bind (condition_known v) fun taken _ =>
      .pure ⟨⟨h.current.frame, ?_⟩, h.waiting, h.active⟩
    have hcopy (src : Var) : ∀ j ∈ walkInstrs [.copy dst src], idsIn p j :=
      List.forall_mem_singleton.mpr rfl
    simp only [Flat.walkInstrs_append, List.forall_mem_append]
    refine ⟨?_, h.current.instrs⟩
    cases taken <;> simp only [Bool.false_eq_true, ↓reduceIte, Flat.walkInstrs_append,
      List.forall_mem_append]
    · exact ⟨hids.2.2, hcopy falseResult⟩
    · exact ⟨hids.2.1, hcopy trueResult⟩

/-- So does a step, unless the machine stops with an answer. -/
theorem step_sound (hp : inRange p) (h : s.Sound p limit) :
    Ends (fun | .inl next => next.Sound p limit | .inr _ => True) Regular (step p limit s) := by
  obtain ⟨⟨frame, instrs, answer⟩, waiting⟩ := s
  cases instrs with
  | nil =>
    refine .bind (Frame.get_known h.current.frame answer) fun v hv => ?_
    cases waiting with
    | nil => exact .pure trivial
    | cons entry waiting =>
      obtain ⟨hcaller, hwaiting⟩ := List.forall_mem_cons.mp h.waiting
      exact .pure ⟨hcaller.set hv entry.1, hwaiting, Nat.le_of_succ_le h.active⟩
  | cons i rest =>
    have hinstrs := h.current.instrs
    rw [walkInstrs, List.forall_mem_append] at hinstrs
    have hrest : (Stack.mk ⟨frame, rest, answer⟩ waiting).Sound p limit :=
      ⟨⟨h.current.frame, hinstrs.2⟩, h.waiting, h.active⟩
    exact .bind (advance_sound hp hrest hinstrs.1) fun next hnext => .pure hnext

theorem start_sound (hp : inRange p) (limit : Nat) : (Stack.start p).Sound p limit := by
  refine ⟨⟨List.forall_mem_nil _, fun i hi => ?_⟩, List.forall_mem_nil _, Nat.zero_le _⟩
  exact List.all_eq_true.mp (Bool.and_eq_true_iff.mp hp).2 i (List.mem_append_right _ hi)

theorem Reaches.sound (hp : inRange p) (h : Reaches p limit s st) : s.Sound p limit := by
  induction h with
  | start => exact start_sound hp limit
  | @step s next st st' _ hstep ih =>
    have hnext := step_sound hp ih st
    rw [hstep] at hnext
    exact hnext

theorem Halts.regular (hp : inRange p) {outcome} (h : Halts p limit s st outcome)
    (hs : s.Sound p limit) {e : RunError} (he : outcome.1 = .error e) : Regular e := by
  induction h with
  | @fails s st st' e' hstep =>
    have hsound := step_sound hp hs st
    rw [hstep] at hsound
    cases he
    exact hsound
  | done => cases he
  | @later s next st st' outcome hstep _ ih =>
    have hsound := step_sound hp hs st
    rw [hstep] at hsound
    exact ih hsound he

/-- **Every run ends.** The steps of a program whose ids are in range come to an end after finitely
many, whatever limit there is on nested calls, and `run` answers with what they end with: a result,
or an error other than that of an unknown id. At no point are more calls active than the limit
allows. -/
theorem run_terminates {p : Program} (h : inRange p) (limit : Nat) :
    (∃ answer st, Halts p limit (.start p) .start (answer, st) ∧
      (run limit p).1 = answer.map (⟨st.output, ·⟩)) ∧
    (∀ e, (run limit p).1 = .error e → Regular e) ∧
    ∀ s st, Reaches p limit s st → s.waiting.length ≤ limit := by
  have hhalts := start_halts p limit
  have hrun : (run limit p).1 = (execBlock p (invoke p limit limit) p.entry [] .start).1.map
      (⟨(execBlock p (invoke p limit limit) p.entry [] .start).2.output, ·⟩) := by
    simp only [run, ExceptT.run, StateT.run]
    rcases execBlock p (invoke p limit limit) p.entry [] .start with ⟨e | v, st⟩ <;> rfl
  refine ⟨⟨_, _, hhalts, hrun⟩, fun e he => ?_, fun s st hs => (hs.sound h).active⟩
  refine hhalts.regular h (start_sound h limit) ?_
  rw [hrun] at he
  cases hanswer : (execBlock p (invoke p limit limit) p.entry [] .start).1 <;>
    rw [hanswer] at he <;> cases he
  rfl

/-- A text whose program calls one function without end. -/
def loopText : String := "loop x = loop x\nmain = loop 1"

theorem loopText_terminates :
    ∃ p, (flattenSource {} loopText).result = .ok p ∧ inRange p ∧
      ∃ st, Halts p 3 (.start p) .start (.error (.stackOverflow 3), st) := by
  have hcheck : ((flattenSource {} loopText).result.toOption.map fun p =>
      (inRange p, match (run 3 p).1 with
        | .error e => some e
        | .ok _ => none)) = some (true, some (.stackOverflow 3)) := by
    decide +kernel
  obtain ⟨p, hp, hcheck⟩ := Option.map_eq_some_iff.mp hcheck
  obtain ⟨hrange, hover⟩ := Prod.mk.inj hcheck
  obtain ⟨answer, st, hhalts, hrun⟩ := (run_terminates hrange 3).1
  rw [hrun] at hover
  refine ⟨p, ok_of_toOption hp, hrange, st, ?_⟩
  cases answer with
  | error e =>
    cases hover
    exact hhalts
  | ok v => cases hover

end Lamina.Machine
