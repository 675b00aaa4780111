import Lamina.Proofs.Flat.Constructors
import Lamina.Proofs.Native.Execution

/-!
# Native programs follow runs

A native program is the main function and the functions of a flat program. Its calls nest on a stack
of their own. If the program was assembled from an outline, the native program follows the run of
that outline: it exits as the run ends (`exit_of_ok`, `exit_of_error`), unless its stack is shorter
than the run needs.
-/

namespace Lamina

open Lamina.Core (NodeId Module)
open Lamina.Flat (Callee Var Instr Term Routine Outline ConvertState GlobalSlot Numbers operandCode
  pairCode walkInstrs walkInstrs_append)
open Lamina.Machine (Value RunM RunError State)

variable {p : Flat.Program}

/-! ## The texts in a program -/

/-- The text stands in one of the instructions. -/
def Flat.Contains (text : String) (instrs : List Instr) : Prop :=
  ∃ dst, Instr.str dst text ∈ walkInstrs instrs

namespace Flat.Contains

variable {text : String} {direct : Bool} {m : Module}

theorem append_left {first : List Instr} (h : Contains text first) (second : List Instr) :
    Contains text (first ++ second) := by
  obtain ⟨dst, hmem⟩ := h
  exact ⟨dst, by rw [walkInstrs_append]; exact List.mem_append_left _ hmem⟩

theorem append_right {second : List Instr} (h : Contains text second) (first : List Instr) :
    Contains text (first ++ second) := by
  obtain ⟨dst, hmem⟩ := h
  exact ⟨dst, by rw [walkInstrs_append]; exact List.mem_append_right _ hmem⟩

theorem branch {yes no : List Instr} (h : Contains text (yes ++ no)) (dst test yesVar noVar : Var) :
    Contains text [.branch dst test yes yesVar no noVar] := by
  obtain ⟨dst', hmem⟩ := h
  rw [walkInstrs_append] at hmem
  refine ⟨dst', ?_⟩
  simp only [walkInstrs, Instr.walk, List.append_nil]
  exact List.mem_cons_of_mem _ hmem

theorem operand {t : Term} (h : ∀ dst st, text ∈ t.texts → Contains text (t.code direct m dst st).1)
    (htext : text ∈ t.texts) (st : ConvertState) :
    Contains text (operandCode m t (t.code direct m) st).1.1 := by
  cases t with
  | param node => cases htext
  | _ => exact h _ st.next htext

theorem pair {one two : Term} (last : Var → Var → Instr) (st : ConvertState)
    (hone : ∀ dst st, text ∈ one.texts → Contains text (one.code direct m dst st).1)
    (htwo : ∀ dst st, text ∈ two.texts → Contains text (two.code direct m dst st).1)
    (htext : text ∈ one.texts ++ two.texts) :
    Contains text (pairCode (operandCode m one (one.code direct m))
      (operandCode m two (two.code direct m)) last st).1 := by
  rcases List.mem_append.mp htext with htext | htext
  · exact ((operand hone htext st).append_left _).append_left _
  · exact ((operand htwo htext _).append_right _).append_left _

/-- The texts of a term stand in its code. -/
theorem code (t : Term) (dst : Var) (st : ConvertState) (htext : text ∈ t.texts) :
    Contains text (t.code direct m dst st).1 := by
  induction t using Term.codeInduction generalizing dst st with
  | str other =>
    cases List.mem_singleton.mp htext
    exact ⟨dst, by simp [Term.code, walkInstrs, Instr.walk]⟩
  | int | con | param | prim | global | closure => cases htext
  | inlined value ih => exact ih dst st htext
  | app func arg ihFunc ihArg ihFirst =>
    apply Term.code_app_cases (motive := fun made => Contains text made.1)
    · exact pair _ st ihFunc ihArg htext
    · rintro op rfl _
      exact (operand ihArg htext st).append_left _
    · rintro op first rfl _
      exact pair _ st (ihFirst op first rfl) ihArg htext
  | cond test onTrue onFalse ihTest ihYes ihNo =>
    simp only [Term.texts, List.mem_append] at htext
    unfold Term.code
    rcases htext with (htext | htext) | htext
    · exact (operand ihTest htext st).append_left _
    · exact (((ihYes _ _ htext).append_left _).branch _ _ _ _).append_right _
    · exact (((ihNo _ _ htext).append_right _).branch _ _ _ _).append_right _

end Flat.Contains

/-- No text of a program has a zero character in it. -/
def Flat.Program.TextsVisible (p : Flat.Program) : Prop :=
  ∀ dst text, Instr.str dst text ∈ p.walk → '\x00' ∉ text.toList

/-- Has an instruction no text with a zero character? -/
def Flat.Instr.textVisible : Instr → Bool
  | .str _ text => !text.toList.contains '\x00'
  | _ => true

theorem Flat.Program.textsVisible_iff : p.TextsVisible ↔ ∀ i ∈ p.walk, i.textVisible := by
  refine ⟨fun h i hi => ?_, fun h dst text hmem => ?_⟩
  · cases i with
    | str dst text => simpa [Instr.textVisible] using h dst text hi
    | _ => rfl
  · simpa [Instr.textVisible] using h _ hmem

instance (p : Flat.Program) : Decidable p.TextsVisible :=
  decidable_of_iff _ Flat.Program.textsVisible_iff.symm

theorem Flat.Program.TextsVisible.of_contains (h : p.TextsVisible) {instrs}
    (hsub : walkInstrs instrs ⊆ p.walk) {text} (htext : Contains text instrs) :
    Native.visible text = text := by
  obtain ⟨dst, hmem⟩ := htext
  exact Native.visible_eq (h dst text (hsub hmem))

namespace Native

variable {v : Value} {a : Address} {args : List Value} {i stack : Nat}

/-! ## Calls -/

theorem Follows.modify_bind {α β short w} {R : World Callee → α → β → Prop} {f x y}
    (hf : ∀ st, (f st).output = st.output) (h : Follows short w R (x ⟨⟩) y) :
    Follows short w R (modify f >>= x) y :=
  fun st hout => h (f st) ((hf st).trans hout)

variable {short : Prop} {w init : World Callee} {number : String → Nat} {o : Outline}
  {direct : Bool} {m : Module} {globals : List Address}

/-- The scope of a call has the addresses of the arguments. -/
theorem provides_callScope {r : Routine} {addresses} (instrs : List Instr)
    (hlen : args.length = r.scope.length) (hargs : List.Forall₂ (Represents w) args addresses) :
    Provides w m (Outline.bound r.scope args)
      ((r.function m instrs).allParams.zip addresses).reverse r.scope := by
  intro id hid
  obtain ⟨v, a, hv, ha, hrep⟩ := lookup_zip_reverse hargs (Nat.le_of_eq hlen.symm) hid
  refine ⟨a, ?_, ?_⟩
  · rw [Flat.lookup_allParams]
    exact ha
  · rw [Outline.bound, hv]
    exact hrep

/-- The code of a routine is part of the program. -/
theorem walk_routine_subset {f} (h : (o.assemble direct m ⟨0, []⟩).1.functions[i]? = some f) :
    walkInstrs f.body.instrs ⊆ (o.assemble direct m ⟨0, []⟩).1.walk := by
  intro instr hmem
  refine List.mem_append_left _ (List.mem_flatMap.mpr ⟨f, ?_, hmem⟩)
  exact Array.mem_toList_iff.mpr (Array.mem_of_getElem? h)

theorem walk_entry_subset :
    walkInstrs (o.assemble direct m ⟨0, []⟩).1.entry.instrs ⊆ (o.assemble direct m ⟨0, []⟩).1.walk :=
  List.subset_append_right _ _

/-- If there is no such routine, or it takes another number of arguments, the run has an error of its
own. -/
theorem called_follows {next native}
    (h : ∀ r, o.routines[i]? = some r → args.length = r.scope.length →
      Follows short w Represents (next r) native) :
    Follows short w Represents (o.called i args >>= next) native := by
  unfold Outline.called
  cases hi : o.routines[i]? with
  | none => exact .of_unsaid rfl native
  | some r =>
    simp only
    split
    · rename_i hlen
      rw [pure_bind]
      exact h r hi hlen
    · exact .of_unsaid rfl native

theorem call_intrinsic (p : Flat.Program) (globals : List Address) (stack : Nat) (op : Intrinsic)
    (args : List Address) : call p globals stack (.intrinsic op) args = callIntrinsic op args := by
  cases stack <;> rfl

/-- Native calls follow those of the outline; if fewer of them fit on the stack than may nest in
the run, it is short. -/
theorem call_follows (hnum : Numbers number o.table) (hscoped : o.Scoped)
    (htexts : (o.assemble direct m ⟨0, []⟩).1.TextsVisible)
    (hglobals : Loaded init o.globals globals) (limit free : Nat) (hstack : free ≤ stack ∨ short) :
    Calls short init (o.call number limit free)
      (call (o.assemble direct m ⟨0, []⟩).1 globals stack) := by
  -- inside a call one level less is free, in the run and on the stack
  induction free generalizing stack with
  | zero =>
    refine ⟨fun {w callee args addresses} hinit hargs => ?_⟩
    cases callee with
    | intrinsic op =>
      rw [call_intrinsic]
      exact callIntrinsic_follows op hargs
    | function i => exact called_follows fun r _ _ => .of_unsaid rfl _
  | succ free ih =>
    refine ⟨fun {w callee args addresses} hinit hargs => ?_⟩
    cases callee with
    | intrinsic op =>
      rw [call_intrinsic]
      exact callIntrinsic_follows op hargs
    | function i =>
      cases stack with
      | zero =>
        have hshort : short := hstack.resolve_left (Nat.not_succ_le_zero free)
        exact fun _ _ => .exhausted hshort
      | succ stack =>
        refine called_follows fun r hr hlen => .modify_bind (fun _ => rfl) ?_
        obtain ⟨st, hget, hstart⟩ := Flat.assembleAll_getElem_some direct m hr ⟨0, []⟩
        have hfunction : (o.assemble direct m ⟨0, []⟩).1.functions[i]? = _ :=
          List.getElem?_toArray.trans hget
        simp only [call, hfunction]
        have hbody := hscoped.routine r (List.mem_of_getElem? hr)
        refine (code_follows (ih ?_) (Outline.call_intrinsic number o limit free) hglobals
          r.body).execBlock .result st _ hinit ?_ ?_ ?_
        · exact hstack.imp_left Nat.le_of_succ_le_succ
        · exact hnum.of_prefix (hstart.trans (o.main.prefix_table _))
        · exact (provides_callScope _ hlen hargs).of_subset hbody
        · exact fun text htext => htexts.of_contains (walk_routine_subset hfunction)
            (Flat.Contains.code r.body .result st htext)

/-! ## The main function -/

theorem initGlobals_follows (slots : List GlobalSlot) :
    Follows short w (fun w' _ globals => List.Forall₂ (fun slot a =>
      Represents w' (.closure (.function slot.function) slot.arity []) a) slots globals)
      (pure ()) (initGlobals slots) := by
  induction slots generalizing w with
  | nil => exact .pure .nil
  | cons slot rest ih =>
    have hslot : Follows short w
        (fun w' _ a => Represents w' (.closure (.function slot.function) slot.arity []) a)
        (pure ()) (allocClosure (.function slot.function) (slot.arity : Int)) :=
      .alloc fun _ hcell => .closure hcell (by simp) (.nil _)
    refine hslot.bind (f := fun _ => pure ()) ?_
    intro w₁ _ a _ ha
    refine ih.bind (f := fun _ => pure ()) ?_
    intro w₂ _ globals hext hrest
    exact .pure (.cons (ha.mono hext) hrest)

/-- Prints the value of a program, unless it is the unit value. -/
def printResult (v : Value) : RunM Unit := do
  if ← pure v.isUnit then return ()
  else modify fun st => { st with output := st.output ++ v.text ++ "\n" }

theorem isUnit_follows (h : Represents w v a) :
    Follows short w (fun _ => Eq) (pure v.isUnit) (isUnit a) := by
  cases h with
  | int hcell | str hcell | closure hcell => exact .load_bind hcell (.pure rfl)
  | @con _ tag hcell =>
    refine .load_bind hcell (.pure ?_)
    cases tag <;> rfl

theorem printValue_follows (h : Represents w v a) :
    Follows short w (fun _ _ _ => True)
      (modify fun st : State => { st with output := st.output ++ v.text ++ "\n" } : RunM Unit)
      (do
        printValue a
        print "\n") := by
  obtain ⟨cell, hcell, htext⟩ := h.text_eq
  unfold printValue
  rw [bind_assoc]
  refine .load_bind hcell ?_
  rw [htext]
  intro st hout
  exact .done (congrArg (· ++ v.text ++ "\n") hout) ⟨id⟩ trivial

theorem printResult_follows (h : Represents w v a) :
    Follows short w (fun _ _ _ => True) (printResult v) (do
      if ← isUnit a then return ()
      else
        printValue a
        print "\n") := by
  refine (isUnit_follows h).bind ?_
  rintro w' b _ hext rfl
  cases b with
  | true => exact .pure trivial
  | false => exact printValue_follows (h.mono hext)

/-- The native program follows the run of the outline. -/
theorem mainProgram_follows (hnum : Numbers number o.table) (hscoped : o.Scoped)
    (htexts : (o.assemble direct m ⟨0, []⟩).1.TextsVisible) {limit : Nat}
    (hstack : limit ≤ stack ∨ short) :
    Follows short .start (fun _ _ _ => True) (o.eval number limit >>= printResult)
      (mainProgram stack (o.assemble direct m ⟨0, []⟩).1) := by
  rw [← pure_bind () fun _ => o.eval number limit >>= printResult]
  refine (initGlobals_follows o.globals.toList).bind ?_
  intro init _ globals _ hglobals
  have hcalls := call_follows hnum hscoped htexts hglobals limit limit hstack
  refine Follows.bind ((code_follows hcalls (Outline.call_intrinsic number o limit limit) hglobals
    o.main).execBlock .mainResult _ [] (.refl init) ?_ ?_ ?_) ?_
  · rw [Flat.assembleAll_constructors]
    exact hnum
  · intro id hid
    cases hscoped.main hid
  · exact fun text htext => htexts.of_contains walk_entry_subset
      (Flat.Contains.code o.main .mainResult _ htext)
  · intro w v a _ hv
    exact printResult_follows hv

/-! ## How native programs exit -/

/-- The calls of the program nest too deep for the stack. -/
def Exhausts (stack : Nat) (p : Flat.Program) : Prop :=
  (mainProgram stack p .start).1 = .error .stackExhausted

theorem printResult_apply (v : Value) (st : State) :
    ∃ st', printResult v st = (.ok (), st') ∧
      st'.output = Machine.Execution.transcript ⟨st.output, v⟩ := by
  unfold printResult Machine.Execution.transcript
  cases v.isUnit with
  | true => exact ⟨_, rfl, rfl⟩
  | false => exact ⟨_, rfl, rfl⟩

section

variable (hnum : Numbers number o.table) (hscoped : o.Scoped)
  (htexts : (o.assemble direct m ⟨0, []⟩).1.TextsVisible) {limit stack : Nat}
  (hstack : limit ≤ stack ∨ ¬Exhausts stack (o.assemble direct m ⟨0, []⟩).1) {st : State}
include hnum hscoped htexts hstack

/-- If the run ends, the native program exits with zero and has printed what the user sees. -/
theorem exit_of_ok (heval : o.eval number limit .start = (.ok v, st)) :
    (mainProgram stack (o.assemble direct m ⟨0, []⟩).1).exit =
      ⟨0, Machine.Execution.transcript ⟨st.output, v⟩, ""⟩ := by
  have hmain := mainProgram_follows hnum hscoped htexts (Classical.em (limit ≤ stack)) .start rfl
  obtain ⟨st', hprint, htranscript⟩ := printResult_apply v st
  rw [Machine.RunM.bind_apply, heval] at hmain
  simp only [hprint] at hmain
  generalize hnative : mainProgram stack (o.assemble direct m ⟨0, []⟩).1 .start = native at hmain
  cases hmain with
  | done hout _ _ =>
    simp only [NativeM.exit, ExceptT.run, StateT.run, hnative]
    rw [← htranscript, hout]
  | exhausted hshort =>
    exact absurd (congrArg Prod.fst hnative) (hstack.resolve_left hshort)

/-- If the run fails with an error that a native program has words for, the program exits with one,
says so, and has printed what the run wrote before. -/
theorem exit_of_error {e f} (heval : o.eval number limit .start = (.error e, st))
    (he : Fatal.of? e = some f) :
    (mainProgram stack (o.assemble direct m ⟨0, []⟩).1).exit =
      ⟨1, st.output, "runtime error: " ++ e.message ++ "\n"⟩ := by
  have hmain := mainProgram_follows hnum hscoped htexts (Classical.em (limit ≤ stack)) .start rfl
  rw [Machine.RunM.bind_apply, heval] at hmain
  generalize hnative : mainProgram stack (o.assemble direct m ⟨0, []⟩).1 .start = native at hmain
  cases hmain with
  | failed hout hf =>
    simp only [NativeM.exit, ExceptT.run, StateT.run, hnative]
    rw [hout, Fatal.report_of? hf]
  | unsaid hnone =>
    rw [he] at hnone
    cases hnone
  | exhausted hshort =>
    exact absurd (congrArg Prod.fst hnative) (hstack.resolve_left hshort)

end

end Native

end Lamina
