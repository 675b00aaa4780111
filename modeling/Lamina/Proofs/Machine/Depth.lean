import Lamina.Pipeline
import Lamina.Proofs.Except
import Lamina.Proofs.Machine.Alike
import Lamina.Proofs.Machine.Intrinsic

/-!
# The limit on nested calls

The limit decides how deep calls may nest, and nothing else. A run that stays within a limit is the
same run within every larger one: the same output and result, or the same error, with as many calls
that nest as deep. A run that goes beyond a limit goes beyond every smaller one.
-/

namespace Lamina.Machine

open Lamina.Flat (Var Callee Instr Function FunctionId Program)

variable {α β : Type} {low high free free' : Nat}

/-- From every state the first run goes beyond `limit`; or it goes beyond no limit, and the second
does exactly what it does. -/
def Repeats (limit : Nat) (x y : RunM α) : Prop :=
  ∀ st, (x st).1 = .error (.stackOverflow limit) ∨
    y st = x st ∧ ∀ other, (x st).1 ≠ .error (.stackOverflow other)

/-- The errors that no limit is to blame for. -/
def NoOverflow (e : RunError) : Prop := ∀ limit, e ≠ .stackOverflow limit

namespace Repeats

variable {limit : Nat} {x : RunM α}

/-- A run that cannot overflow repeats itself. -/
theorem of_ends (h : Ends (fun _ => True) NoOverflow x) : Repeats limit x x := by
  intro st
  refine .inr ⟨rfl, fun other hover => ?_⟩
  have hst := h st
  rw [hover] at hst
  exact hst other rfl

theorem pure (a : α) : Repeats limit (Pure.pure a) (Pure.pure a) :=
  of_ends (.pure trivial)

theorem throw {e} (h : NoOverflow e) : Repeats limit (throw e : RunM α) (throw e : RunM α) :=
  of_ends (.throw h)

/-- What overflows the limit is repeated by anything. -/
theorem overflow (y : RunM α) : Repeats limit (MonadExcept.throw (.stackOverflow limit)) y :=
  fun _ => .inl rfl

theorem bind {y : RunM α} {f g : α → RunM β} (h : Repeats limit x y)
    (hnext : ∀ a, Repeats limit (f a) (g a)) : Repeats limit (x >>= f) (y >>= g) := by
  intro st
  rw [RunM.bind_apply, RunM.bind_apply]
  rcases h st with hover | ⟨hsame, hno⟩
  · refine .inl ?_
    rcases hx : x st with ⟨e | a, st'⟩ <;> rw [hx] at hover <;> cases hover
    rfl
  · rw [hsame]
    rcases hx : x st with ⟨e | a, st'⟩ <;> rw [hx] at hno
    · exact .inr ⟨rfl, fun other hover => hno other (by cases hover; rfl)⟩
    · exact hnext a st'

theorem modify_bind {f} {x y : PUnit → RunM α} (h : Repeats limit (x ⟨⟩) (y ⟨⟩)) :
    Repeats limit (modify f >>= x) (modify f >>= y) := fun st => h (f st)

end Repeats

/-! ## Steps that make no calls -/

theorem Frame.get_ends (frame : Frame) (x : Var) :
    Ends (fun _ => True) NoOverflow (frame.get x) := by
  unfold Frame.get
  split
  · exact .pure trivial
  · exact .throw nofun

theorem runIntrinsic_ends (op : Intrinsic) (args : List Value) :
    Ends (fun _ => True) NoOverflow (runIntrinsic op args) := by
  unfold runIntrinsic
  rcases callIntrinsic_cases op args with ⟨answer, hcall, -⟩ | ⟨e, hcall, he⟩ <;> rw [hcall]
  · exact .modify_bind (.pure trivial)
  · refine .throw ?_
    rcases he with (rfl | ⟨_, _, rfl⟩) | ⟨_, _, rfl⟩ <;> exact nofun

theorem condition_ends (v : Value) : Ends (fun _ => True) NoOverflow (condition v) := by
  cases v with
  | int n => exact .pure trivial
  | _ => exact .throw nofun

theorem calledFunction_ends (p : Program) (id : FunctionId) (args : List Value) :
    Ends (fun _ => True) NoOverflow (calledFunction p id args) := by
  unfold calledFunction
  split
  · exact .throw nofun
  · split
    · exact .pure trivial
    · exact .throw nofun

/-! ## Instructions and calls -/

section

variable {limit : Nat} {first second : Callee → List Value → RunM Value}

theorem apply_repeats (h : ∀ callee args, Repeats limit (first callee args) (second callee args))
    (func arg : Value) : Repeats limit (apply first func arg) (apply second func arg) := by
  cases func with
  | closure callee arity args =>
    simp only [apply]
    split
    · exact .pure _
    · split
      · exact .throw nofun
      · exact h callee (args ++ [arg])
  | _ => exact .throw nofun

theorem mapM_get_repeats (frame : Frame) (vars : List Var) :
    Repeats limit (vars.mapM frame.get) (vars.mapM frame.get) := by
  induction vars with
  | nil => exact .pure _
  | cons x rest ih =>
    rw [List.mapM_cons]
    exact (Repeats.of_ends (frame.get_ends x)).bind fun _ => ih.bind fun _ => .pure _

mutual

/-- An instruction is repeated if the calls it makes are. -/
theorem exec_repeats (p : Program)
    (h : ∀ callee args, Repeats limit (first callee args) (second callee args)) :
    (i : Instr) → (frame : Frame) → Repeats limit (exec p first i frame) (exec p second i frame)
  | .int _ _, _ | .str _ _, _ | .con _ _ _, _ | .closure _ _ _, _ => by
    simp only [exec]
    exact .pure _
  | .copy _ src, frame => by
    simp only [exec]
    exact (Repeats.of_ends (frame.get_ends src)).bind fun _ => .pure _
  | .load _ slot, _ => by
    simp only [exec]
    split
    · exact .pure _
    · exact .throw nofun
  | .call _ op args, frame => by
    simp only [exec]
    exact (mapM_get_repeats frame args).bind fun values =>
      (Repeats.of_ends (runIntrinsic_ends op values)).bind fun _ => .pure _
  | .apply _ func arg, frame => by
    simp only [exec]
    exact (Repeats.of_ends (frame.get_ends func)).bind fun f =>
      (Repeats.of_ends (frame.get_ends arg)).bind fun a =>
        (apply_repeats h f a).bind fun _ => .pure _
  | .branch _ cond onTrue trueResult onFalse falseResult, frame => by
    simp only [exec]
    refine (Repeats.of_ends (frame.get_ends cond)).bind fun v =>
      (Repeats.of_ends (condition_ends v)).bind fun taken => ?_
    split
    · exact (execAll_repeats p h onTrue frame).bind fun after =>
        (Repeats.of_ends (after.get_ends trueResult)).bind fun _ => .pure _
    · exact (execAll_repeats p h onFalse frame).bind fun after =>
        (Repeats.of_ends (after.get_ends falseResult)).bind fun _ => .pure _

theorem execAll_repeats (p : Program)
    (h : ∀ callee args, Repeats limit (first callee args) (second callee args)) :
    (instrs : List Instr) → (frame : Frame) →
      Repeats limit (execAll p first instrs frame) (execAll p second instrs frame)
  | [], _ => by
    simp only [execAll]
    exact .pure _
  | i :: rest, frame => by
    simp only [execAll]
    exact (exec_repeats p h i frame).bind fun after => execAll_repeats p h rest after

end

theorem execBlock_repeats (p : Program)
    (h : ∀ callee args, Repeats limit (first callee args) (second callee args))
    (block : Flat.Block) (frame : Frame) :
    Repeats limit (execBlock p first block frame) (execBlock p second block frame) :=
  (execAll_repeats p h block.instrs frame).bind fun after =>
    .of_ends (after.get_ends block.result)

end

theorem invoke_intrinsic_repeats (p : Program) {limit : Nat} (op : Intrinsic) (args : List Value) :
    Repeats limit (invoke p low free (.intrinsic op) args)
      (invoke p high free' (.intrinsic op) args) := by
  rw [invoke, invoke]
  exact .of_ends (runIntrinsic_ends op args)

/-- A call at some depth is repeated where as many calls or more may still nest. -/
theorem invoke_repeats (p : Program) (hfree : free ≤ free') (depth : Nat) (callee : Callee)
    (args : List Value) :
    Repeats (depth + free) (invoke p (depth + free) free callee args)
      (invoke p (depth + free') free' callee args) := by
  -- the body of a call runs one level deeper, with one call less to nest
  induction free generalizing free' depth callee args with
  | zero =>
    cases callee with
    | intrinsic op => exact invoke_intrinsic_repeats p op args
    | function id =>
      rw [invoke]
      cases free' <;>
        exact (Repeats.of_ends (calledFunction_ends p id args)).bind fun _ => .overflow _
  | succ free ih =>
    cases callee with
    | intrinsic op => exact invoke_intrinsic_repeats p op args
    | function id =>
      obtain ⟨free', rfl⟩ : ∃ n, free' = n + 1 := ⟨free' - 1, by omega⟩
      have hlow : depth + (free + 1) = depth + 1 + free := by omega
      have hhigh : depth + (free' + 1) = depth + 1 + free' := by omega
      rw [invoke, invoke, hlow, hhigh, Nat.add_sub_cancel, Nat.add_sub_cancel]
      refine (Repeats.of_ends (calledFunction_ends p id args)).bind fun f => .modify_bind ?_
      exact execBlock_repeats p (ih (Nat.le_of_succ_le_succ hfree) (depth + 1)) f.body
        (callFrame f args)

/-- The run of a program within a limit is repeated within a larger one. -/
theorem entry_repeats (p : Program) (h : low ≤ high) :
    Repeats low (execBlock p (invoke p low low) p.entry [])
      (execBlock p (invoke p high high) p.entry []) := by
  refine execBlock_repeats p (fun callee args => ?_) p.entry []
  have hcall := invoke_repeats p h 0 callee args
  rwa [Nat.zero_add, Nat.zero_add] at hcall

/-- A run goes beyond its own limit; or beyond none, and then it is the same within a larger one. -/
theorem run_repeats (p : Program) (h : low ≤ high) :
    (run low p).1 = .error (.stackOverflow low) ∨
      run high p = run low p ∧ ∀ limit, (run low p).1 ≠ .error (.stackOverflow limit) := by
  have hstart := entry_repeats p h .start
  simp only [run, ExceptT.run, StateT.run]
  rcases hlow : execBlock p (invoke p low low) p.entry [] .start with ⟨e | v, st⟩ <;>
    rw [hlow] at hstart
  · rcases hstart with hover | ⟨hsame, hno⟩
    · cases hover
      exact .inl rfl
    · rw [hsame]
      exact .inr ⟨rfl, fun limit hover => hno limit (by cases hover; rfl)⟩
  · rcases hstart with hover | ⟨hsame, _⟩
    · cases hover
    · rw [hsame]
      exact .inr ⟨rfl, nofun⟩

/-- **Runs are monotone in the limit on nested calls.** A run that does not go beyond its limit is
repeated exactly within every larger limit, with its output, its result or its error, and what it
reports. A run that goes beyond its limit names that limit, and goes beyond every smaller one. -/
theorem run_monotone_in_limit (p : Program) {low high : Nat} (h : low ≤ high) :
    ((∀ limit, (run low p).1 ≠ .error (.stackOverflow limit)) → run high p = run low p) ∧
      ∀ limit, (run high p).1 = .error (.stackOverflow limit) →
        limit = high ∧ (run low p).1 = .error (.stackOverflow low) := by
  refine ⟨fun hno => ?_, fun limit hover => ?_⟩
  · rcases run_repeats p h with hlow | ⟨hsame, _⟩
    · exact absurd hlow (hno low)
    · exact hsame
  · have hlimit : limit = high := by
      rcases run_repeats p (Nat.le_refl high) with hhigh | ⟨_, hno⟩
      · cases hover.symm.trans hhigh
        rfl
      · exact absurd hover (hno limit)
    rcases run_repeats p h with hlow | ⟨hsame, hno⟩
    · exact ⟨hlimit, hlow⟩
    · exact absurd (hsame ▸ hover) (hno limit)

/-- A text whose program nests three calls, and calls a function again once they have returned. -/
def countdownText : String :=
  "down n = if n <= 0 then putStrLn \"done\" else down (n - 1)\n" ++
  "pick a b = b\n" ++
  "main = pick (down 2) (down 1)"

/-- The program needs a limit of three. -/
theorem countdownText_needs_three :
    ∃ p, (flattenSource {} countdownText).result = .ok p ∧
      (∀ high, 3 ≤ high → run high p = run 3 p) ∧
      (run 3 p).1.toOption.map (·.output) = some "done\ndone\n" ∧
      ∀ low, low ≤ 2 → (run low p).1 = .error (.stackOverflow low) := by
  have hcheck : ((flattenSource {} countdownText).result.toOption.map fun p =>
      ((run 3 p).1.toOption.map (·.output), match (run 2 p).1 with
        | .error e => some e
        | .ok _ => none)) = some (some "done\ndone\n", some (.stackOverflow 2)) := by
    decide +kernel
  obtain ⟨p, hp, hcheck⟩ := Option.map_eq_some_iff.mp hcheck
  obtain ⟨houtput, htwo⟩ := Prod.mk.inj hcheck
  have hover : (run 2 p).1 = .error (.stackOverflow 2) := by
    split at htwo
    · rename_i e he
      cases htwo
      exact he
    · cases htwo
  have hends : ∀ limit, (run 3 p).1 ≠ .error (.stackOverflow limit) := by
    intro limit hthree
    rw [hthree] at houtput
    cases houtput
  exact ⟨p, ok_of_toOption hp, fun high hhigh => (run_monotone_in_limit p hhigh).1 hends, houtput,
    fun low hlow => ((run_monotone_in_limit p hlow).2 2 hover).2⟩

end Lamina.Machine
