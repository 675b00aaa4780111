import Lamina.Proofs.Machine.Alike

/-!
# Runs as steps

A run as a sequence of small steps. The blocks whose calls are active are on a stack, and a call is
refused where the stack is as high as the limit; nothing else bounds a sequence of steps. Every
sequence ends nevertheless, with what `run` answers (`start_halts`).
-/

namespace Lamina.Machine

open Lamina.Flat (Var Callee Instr Function FunctionId Program walkInstrs)

/-- A block that is being run: its variables, the instructions that are left, and its result. -/
structure Activation where
  frame : Frame
  instrs : List Instr
  result : Var

/-- The block that is being run, and those that wait for a call, each with the variable for the
answer. -/
structure Stack where
  current : Activation
  waiting : List (Var × Activation)

def Activation.set (a : Activation) (dst : Var) (v : Value) : Activation :=
  { a with frame := (dst, v) :: a.frame }

/-- What an application comes to while `depth` calls are active: a value, or a call that the limit
allows. -/
inductive Applied (limit depth : Nat)
  | value (v : Value)
  | call (f : Function) (args : List Value) (h : depth < limit)

/-- Applies a value to one argument, up to the call of a function. -/
def applied (p : Program) (limit depth : Nat) (func arg : Value) : RunM (Applied limit depth) :=
  match func with
  | .closure callee arity args =>
    let args := args ++ [arg]
    if args.length < arity then return .value (.closure callee arity args)
    else if arity = 0 ∨ Flat.maxArity < arity then throw (.unsupportedArity arity)
    else
      match callee with
      | .intrinsic op => return .value (← runIntrinsic op args)
      | .function id => do
        let f ← calledFunction p id args
        if h : depth < limit then
          modify fun st => { st with calls := st.calls + 1, deepest := max st.deepest (depth + 1) }
          return .call f args h
        else throw (.stackOverflow limit)
  | other => throw (.notAClosure other.kind)

/-- The stack behind an application in front of the block `rest`, which waits for a call. -/
def Applied.stack {limit depth : Nat} (rest : Activation) (waiting : List (Var × Activation))
    (dst : Var) : Applied limit depth → Stack
  | value v => ⟨rest.set dst v, waiting⟩
  | call f args _ => ⟨⟨callFrame f args, f.body.instrs, f.body.result⟩, (dst, rest) :: waiting⟩

/-- Carries out an instruction in front of the block `rest`. A branch puts others there. -/
def advance (p : Program) (limit : Nat) (rest : Activation) (waiting : List (Var × Activation)) :
    Instr → RunM Stack
  | .apply dst func arg => do
    let a ← applied p limit waiting.length (← rest.frame.get func) (← rest.frame.get arg)
    return a.stack rest waiting dst
  | .branch dst cond onTrue trueResult onFalse falseResult => do
    let taken ← condition (← rest.frame.get cond)
    let block := if taken then onTrue ++ [.copy dst trueResult] else onFalse ++ [.copy dst falseResult]
    return ⟨{ rest with instrs := block ++ rest.instrs }, waiting⟩
  | i => return ⟨{ rest with frame := ← exec p (invoke p 0 0) i rest.frame }, waiting⟩

/-- One step. A block that is done answers the call that the next one waits for. -/
def step (p : Program) (limit : Nat) (s : Stack) : RunM (Stack ⊕ Value) :=
  match s.current.instrs with
  | [] => do
    let v ← s.current.frame.get s.current.result
    match s.waiting with
    | [] => return .inr v
    | (dst, caller) :: waiting => return .inl ⟨caller.set dst v, waiting⟩
  | i :: rest => return .inl (← advance p limit { s.current with instrs := rest } s.waiting i)

/-- The stack at the start of a program. -/
def Stack.start (p : Program) : Stack := ⟨⟨[], p.entry.instrs, p.entry.result⟩, []⟩

/-- After finitely many steps the machine stops, with an answer or an error. -/
inductive Halts (p : Program) (limit : Nat) : Stack → State → Except RunError Value × State → Prop
  | fails {s st st' e} (h : step p limit s st = (.error e, st')) :
      Halts p limit s st (.error e, st')
  | done {s st st' v} (h : step p limit s st = (.ok (.inr v), st')) :
      Halts p limit s st (.ok v, st')
  | later {s next st st' outcome} (h : step p limit s st = (.ok (.inl next), st'))
      (h' : Halts p limit next st' outcome) : Halts p limit s st outcome

/-- The stacks that steps lead to from the start of a program, each with its state. -/
inductive Reaches (p : Program) (limit : Nat) : Stack → State → Prop
  | start : Reaches p limit (.start p) .start
  | step {s next st st'} (h : Reaches p limit s st)
      (hstep : step p limit s st = (.ok (.inl next), st')) : Reaches p limit next st'

/-! ## Steps against runs -/

variable {p : Program} {limit free : Nat} {α β : Type}

/-- The machine stops where a run fails, and gets to a stack for the answer where it does not. -/
def Carries (p : Program) (limit : Nat) (s : Stack) (st : State) (x : RunM α) (next : α → Stack) :
    Prop :=
  match x st with
  | (.error e, st') => Halts p limit s st (.error e, st')
  | (.ok a, st') => ∀ outcome, Halts p limit (next a) st' outcome → Halts p limit s st outcome

namespace Carries

variable {s : Stack} {st : State} {x : RunM α}

theorem pure (a : α) (next : α → Stack) : Carries p limit (next a) st (Pure.pure a) next :=
  fun _ h => h

theorem bind {f : α → RunM β} {middle next} (h : Carries p limit s st x middle)
    (hnext : ∀ a st', Carries p limit (middle a) st' (f a) next) :
    Carries p limit s st (x >>= f) next := by
  unfold Carries at h ⊢
  rw [RunM.bind_apply]
  rcases hx : x st with ⟨e | a, st'⟩ <;> rw [hx] at h
  · exact h
  · have hmore := hnext a st'
    unfold Carries at hmore
    simp only
    rcases hf : f a st' with ⟨e | b, st''⟩ <;> rw [hf] at hmore
    · exact h _ hmore
    · exact fun outcome houtcome => h _ (hmore outcome houtcome)

/-- What one step does. -/
theorem of_step {next} (h : step p limit s = x >>= fun a => Pure.pure (.inl (next a))) :
    Carries p limit s st x next := by
  have hstep := (congrFun h st).trans (RunM.bind_apply ..)
  unfold Carries
  rcases hx : x st with ⟨e | a, st'⟩ <;> rw [hx] at hstep
  · exact .fails hstep
  · exact fun outcome => .later hstep

end Carries

/-- What is left of an application behind the step for it, if `free` calls may nest. -/
def finish (p : Program) (free : Nat) {limit depth : Nat} : Applied limit depth → RunM Value
  | .value v => return v
  | .call f args _ => execBlock p (invoke p limit (free - 1)) f.body (callFrame f args)

theorem apply_eq {depth : Nat} (hfree : depth + free = limit) (func arg : Value) :
    apply (invoke p limit free) func arg = applied p limit depth func arg >>= finish p free := by
  cases func with
  | closure callee arity args =>
    simp only [apply, applied]
    split
    · simp [finish]
    · split
      · rfl
      · cases callee with
        | intrinsic op =>
          rw [invoke]
          simp [finish]
        | function id =>
          cases free with
          | zero =>
            have hfull : ¬ depth < limit := by omega
            simp [invoke, hfull]
          | succ free =>
            have hroom : depth < limit := by omega
            have hdepth : limit - free = depth + 1 := by omega
            simp [invoke, hroom, hdepth, finish]
  | _ => rfl

/-- Instructions in front of others are carried out as in a run where `free` calls may nest. -/
def RunsFirst (p : Program) (limit free : Nat) (instrs : List Instr) (x : Frame → RunM Frame) :
    Prop :=
  ∀ frame rest answer waiting st, waiting.length + free = limit →
    Carries p limit ⟨⟨frame, instrs ++ rest, answer⟩, waiting⟩ st (x frame)
      fun frame => ⟨⟨frame, rest, answer⟩, waiting⟩

/-- All instructions are carried out where `free` calls may nest. -/
def RunsAll (p : Program) (limit free : Nat) : Prop :=
  ∀ instrs, RunsFirst p limit free instrs (execAll p (invoke p limit free) instrs)

namespace RunsFirst

theorem append {first second x y} (h : RunsFirst p limit free first x)
    (h' : RunsFirst p limit free second y) :
    RunsFirst p limit free (first ++ second) fun frame => x frame >>= y := by
  intro frame rest answer waiting st hfree
  rw [List.append_assoc]
  exact (h frame _ answer waiting st hfree).bind fun frame st' =>
    h' frame rest answer waiting st' hfree

/-- An instruction that neither calls a function nor branches takes one step. -/
theorem single {i : Instr} (h : ∀ rest waiting, advance p limit rest waiting i =
      exec p (invoke p limit free) i rest.frame >>= fun frame => pure ⟨{ rest with frame }, waiting⟩) :
    RunsFirst p limit free [i] (exec p (invoke p limit free) i) :=
  fun frame rest answer waiting st _ => .of_step (by simp [step, h])

/-- A block of a branch, and its result. -/
theorem copy {instrs : List Instr}
    (h : RunsFirst p limit free instrs (execAll p (invoke p limit free) instrs)) (dst src : Var) :
    RunsFirst p limit free (instrs ++ [.copy dst src]) fun frame => do
      let frame ← execAll p (invoke p limit free) instrs frame
      return (dst, ← frame.get src) :: frame := by
  have hcopy : RunsFirst p limit free [.copy dst src] (exec p (invoke p limit free) (.copy dst src)) :=
    single fun _ _ => by simp only [advance, exec]
  simpa only [exec] using h.append hcopy

end RunsFirst

/-- The block of a call runs, and answers the block that waits. -/
theorem RunsAll.call (h : RunsAll p limit free) {dst caller waiting}
    (hfree : waiting.length + 1 + free = limit) (f : Function) (args : List Value) (st : State) :
    Carries p limit ⟨⟨callFrame f args, f.body.instrs, f.body.result⟩, (dst, caller) :: waiting⟩ st
      (execBlock p (invoke p limit free) f.body (callFrame f args))
      fun v => ⟨caller.set dst v, waiting⟩ := by
  have hbody := h f.body.instrs (callFrame f args) [] f.body.result ((dst, caller) :: waiting) st
    hfree
  rw [List.append_nil] at hbody
  exact hbody.bind fun frame st' => .of_step rfl

theorem RunsFirst.apply (hless : ∀ less, free = less + 1 → RunsAll p limit less)
    (dst func arg : Var) : RunsFirst p limit free [.apply dst func arg]
      (exec p (invoke p limit free) (.apply dst func arg)) := by
  intro frame rest answer waiting st hfree
  have hexec : exec p (invoke p limit free) (.apply dst func arg) frame = (do
      applied p limit waiting.length (← frame.get func) (← frame.get arg)) >>= fun a => do
        return (dst, ← finish p free a) :: frame := by
    simp [exec, apply_eq hfree]
  rw [hexec]
  refine .bind (.of_step (by simp [step, advance]; rfl)) fun a st' => ?_
  cases a with
  | value v => exact .pure _ _
  | call f args hlt =>
    obtain ⟨less, rfl⟩ : ∃ less, free = less + 1 := ⟨free - 1, by omega⟩
    exact ((hless less rfl).call (by omega) f args st').bind fun v st'' => .pure _ _

mutual

theorem exec_runsFirst (hless : ∀ less, free = less + 1 → RunsAll p limit less) :
    (i : Instr) → RunsFirst p limit free [i] (exec p (invoke p limit free) i)
  | .int .. | .str .. | .con .. | .copy .. | .load .. | .closure .. | .call .. =>
    .single fun _ _ => by simp only [advance, exec]
  | .apply dst func arg => .apply hless dst func arg
  | .branch dst cond onTrue trueResult onFalse falseResult => by
    intro frame rest answer waiting st hfree
    have hexec : exec p (invoke p limit free)
        (.branch dst cond onTrue trueResult onFalse falseResult) frame =
        (frame.get cond >>= condition) >>= fun taken =>
          if taken then (do
            let frame ← execAll p (invoke p limit free) onTrue frame
            return (dst, ← frame.get trueResult) :: frame)
          else (do
            let frame ← execAll p (invoke p limit free) onFalse frame
            return (dst, ← frame.get falseResult) :: frame) := by
      simp only [exec, bind_assoc]
    rw [hexec]
    refine .bind (.of_step (by simp [step, advance]; rfl)) fun taken st' => ?_
    cases taken with
    | true => exact (execAll_runsFirst hless onTrue).copy dst trueResult _ _ _ _ _ hfree
    | false => exact (execAll_runsFirst hless onFalse).copy dst falseResult _ _ _ _ _ hfree

theorem execAll_runsFirst (hless : ∀ less, free = less + 1 → RunsAll p limit less) :
    (instrs : List Instr) →
      RunsFirst p limit free instrs (execAll p (invoke p limit free) instrs)
  | [] => fun _ _ _ _ _ _ => by
    simp only [execAll]
    exact fun _ h => h
  | i :: instrs => by
    have hall := (exec_runsFirst hless i).append (execAll_runsFirst hless instrs)
    intro frame
    rw [execAll]
    exact hall frame

end

/-- Steps carry out all instructions, however deep their calls nest. -/
theorem runsAll (p : Program) (limit free : Nat) : RunsAll p limit free := by
  induction free with
  | zero => exact execAll_runsFirst nofun
  | succ free ih =>
    refine execAll_runsFirst fun less hless => ?_
    cases hless
    exact ih

/-- The machine stops, with what a run of the entry block ends with. -/
theorem start_halts (p : Program) (limit : Nat) : Halts p limit (.start p) .start
    (execBlock p (invoke p limit limit) p.entry [] .start) := by
  have hentry := runsAll p limit limit p.entry.instrs [] [] p.entry.result [] .start (by simp)
  rw [List.append_nil] at hentry
  unfold Carries at hentry
  rw [execBlock, RunM.bind_apply]
  rcases hrun : execAll p (invoke p limit limit) p.entry.instrs [] .start with ⟨e | frame, st⟩ <;>
    rw [hrun] at hentry
  · exact hentry
  · refine hentry _ ?_
    have hstep : step p limit ⟨⟨frame, [], p.entry.result⟩, []⟩ st = _ := RunM.bind_apply ..
    simp only
    rcases hget : frame.get p.entry.result st with ⟨e | v, st'⟩ <;> simp only [hget] at hstep
    · exact .fails hstep
    · exact .done hstep

end Lamina.Machine
