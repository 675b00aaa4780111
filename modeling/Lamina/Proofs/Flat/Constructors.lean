import Mathlib.Data.List.Nodup
import Mathlib.Logic.Equiv.List
import Lamina.Proofs.Flat.Coded
import Lamina.Proofs.Flat.Outline

/-!
# Numbered constructors

A program knows its constructors by number. Along its instructions each constructor carries its place
in a table, which grows by those that are new (`assemble_tags`). So the numbers are those of one
numbering, in which no two constructors share a number (`exists_numbers`,
`numberedBy_assemble_iff`), and they tell the constructors apart (`assemble_tagged`).
-/

namespace Lamina.Flat

open Lamina.Core (Module)

variable {number : String → Nat}

/-- The constructors that are no matter of a table: truth values and the unit value. -/
def BuiltIn (name : String) : Prop := name = "True" ∨ name = "False" ∨ name = "()"

/-- No constructor stands twice in the table, and some have no need to stand there. -/
structure Distinct (table : List String) : Prop where
  nodup : table.Nodup
  not_builtIn : ∀ name ∈ table, ¬ BuiltIn name

theorem Term.table_distinct (t : Term) {names} (h : Distinct names) : Distinct (t.table names) := by
  induction t generalizing names with
  | con name =>
    unfold table
    split
    · exact h
    · rename_i hnew
      simp only [not_or] at hnew
      obtain ⟨htrue, hfalse, hunit, hmem⟩ := hnew
      refine ⟨?_, ?_⟩
      · rw [List.nodup_append]
        refine ⟨h.nodup, List.nodup_singleton name, ?_⟩
        rintro a ha b hb rfl
        exact hmem (List.mem_singleton.mp hb ▸ ha)
      · rw [List.forall_mem_append, List.forall_mem_singleton]
        exact ⟨h.not_builtIn, by simp [BuiltIn, htrue, hfalse, hunit]⟩
  | inlined value ih => exact ih h
  | app func arg ihFunc ihArg => exact ihArg (ihFunc h)
  | cond test onTrue onFalse ihTest ihYes ihNo => exact ihNo (ihYes (ihTest h))
  | _ => exact h

theorem Outline.table_distinct (o : Outline) : Distinct o.table := by
  have hroutines : ∀ (rs : List Routine) {names : List String}, Distinct names →
      Distinct (rs.foldl (fun names r => r.body.table names) names) := by
    intro rs
    induction rs with
    | nil => exact fun h => h
    | cons r rest ih => exact fun h => ih (r.body.table_distinct h)
  exact o.main.table_distinct (hroutines o.routines ⟨List.nodup_nil, nofun⟩)

/-- A number for a text, another for each. -/
def textNumber (text : String) : Nat := Encodable.encode (text.toList.map Char.toNat)

theorem textNumber_injective : Function.Injective textNumber := by
  intro a b h
  have hlist := List.map_injective_iff.mpr (fun x y => Char.toNat_inj.mp)
    (Encodable.encode_injective h)
  exact String.toList_inj.mp hlist

/-- A numbering of all constructors: those in the table by their place, the others after them. -/
def numberIn (table : List String) (name : String) : Nat :=
  if name = "()" then 0
  else
    match table.idxOf? name with
    | some i => i + 1
    | none => table.length + 1 + textNumber name

/-- Constructors can be numbered so that the table agrees and no two share a number. -/
theorem exists_numbers {table} (h : Distinct table) :
    ∃ number : String → Nat, Function.Injective number ∧ Numbers number table := by
  refine ⟨numberIn table, ?_, ?_⟩
  · intro a b hab
    unfold numberIn at hab
    -- zero is for the unit value; in the table numbers are at most its length, and above it outside
    by_cases ha : a = "()" <;> by_cases hb : b = "()"
    · rw [ha, hb]
    · rw [if_pos ha, if_neg hb] at hab
      split at hab <;> omega
    · rw [if_neg ha, if_pos hb] at hab
      split at hab <;> omega
    · rw [if_neg ha, if_neg hb] at hab
      cases hi : table.idxOf? a with
      | none =>
        cases hj : table.idxOf? b with
        | none =>
          rw [hi, hj] at hab
          exact textNumber_injective (Nat.add_left_cancel hab)
        | some j =>
          have hlt := (List.getElem?_eq_some_iff.mp (getElem_of_idxOf? hj)).1
          rw [hi, hj] at hab
          simp only at hab
          omega
      | some i =>
        cases hj : table.idxOf? b with
        | none =>
          have hlt := (List.getElem?_eq_some_iff.mp (getElem_of_idxOf? hi)).1
          rw [hi, hj] at hab
          simp only at hab
          omega
        | some j =>
          rw [hi, hj] at hab
          have hat := getElem_of_idxOf? hi
          rw [Nat.succ_injective hab, getElem_of_idxOf? hj] at hat
          exact (Option.some.inj hat).symm
  · refine ⟨if_pos rfl, ?_⟩
    intro i name hi
    have hmem : name ∈ table := List.mem_of_getElem? hi
    have hunit : name ≠ "()" := fun heq => h.not_builtIn name hmem (.inr (.inr heq))
    rw [numberIn, if_neg hunit]
    cases hj : table.idxOf? name with
    | none => exact absurd hmem (List.idxOf?_eq_none_iff.mp hj)
    | some j =>
      obtain ⟨hlt, heq⟩ := List.getElem?_eq_some_iff.mp hi
      obtain ⟨hlt', heq'⟩ := List.getElem?_eq_some_iff.mp (getElem_of_idxOf? hj)
      exact congrArg (· + 1) ((h.nodup.getElem_inj_iff).mp (heq'.trans heq.symm))

/-! ## The tags in code -/

/-- The table of constructors after one more instruction: a constructor that is new comes last. -/
def Instr.enter (table : List String) : Instr → List String
  | .con _ _ name => if name = "()" ∨ name ∈ table then table else table ++ [name]
  | _ => table

/-- Along instructions each constructor carries its place in the table, counted from one; the unit
value carries zero. -/
inductive Tags : List String → List Instr → List String → Prop
  | nil {table} : Tags table [] table
  | other {table after i rest} (hi : ∀ dst tag name, i ≠ .con dst tag name)
      (hrest : Tags table rest after) : Tags table (i :: rest) after
  | unit {table after dst rest} (hrest : Tags table rest after) :
      Tags table (.con dst 0 "()" :: rest) after
  | known {table after dst place name rest} (hplace : table[place]? = some name)
      (hrest : Tags table rest after) : Tags table (.con dst (place + 1) name :: rest) after
  | new {table after dst name rest} (hnew : name ∉ table) (hname : ¬ BuiltIn name)
      (hrest : Tags (table ++ [name]) rest after) :
      Tags table (.con dst (table.length + 1) name :: rest) after

namespace Tags

variable {table middle after : List String} {instrs more : List Instr} {dst : Var} {tag : Nat}
  {name : String}

theorem append (h : Tags table instrs middle) (h' : Tags middle more after) :
    Tags table (instrs ++ more) after := by
  induction h with
  | nil => exact h'
  | other hi _ ih => exact .other hi (ih h')
  | unit _ ih => exact .unit (ih h')
  | known hplace _ ih => exact .known hplace (ih h')
  | new hnew hname _ ih => exact .new hnew hname (ih h')

/-- What comes last is the table of all that was met. -/
theorem foldl_enter (h : Tags table instrs after) : instrs.foldl Instr.enter table = after := by
  induction h with
  | nil => rfl
  | @other _ _ i _ hi _ ih =>
    cases i with
    | con dst tag name => exact absurd rfl (hi dst tag name)
    | _ => exact ih
  | unit _ ih => exact ih
  | known hplace _ ih =>
    rw [List.foldl_cons, Instr.enter, if_pos (.inr (List.mem_of_getElem? hplace)), ih]
  | new hnew hname _ ih =>
    rw [List.foldl_cons, Instr.enter,
      if_neg (not_or.mpr ⟨fun heq => hname (.inr (.inr heq)), hnew⟩), ih]

theorem getElem (h : Tags table instrs after) {i : Nat} (hi : table[i]? = some name) :
    after[i]? = some name := by
  induction h with
  | nil => exact hi
  | other _ _ ih | unit _ ih | known _ _ ih => exact ih hi
  | new _ _ _ ih =>
    refine ih ?_
    rw [List.getElem?_append_left (List.getElem?_eq_some_iff.mp hi).1, hi]

/-- A constructor that is met has its tag by its place in the end. -/
theorem tag_eq (h : Tags table instrs after) (hmem : .con dst tag name ∈ instrs) :
    tag = 0 ∧ name = "()" ∨ ∃ place, tag = place + 1 ∧ after[place]? = some name := by
  induction h with
  | nil => cases hmem
  | other hi _ ih => exact ih ((List.mem_cons.mp hmem).resolve_left (hi dst tag name).symm)
  | unit _ ih =>
    rcases List.mem_cons.mp hmem with heq | hmem
    · cases heq
      exact .inl ⟨rfl, rfl⟩
    · exact ih hmem
  | @known _ _ _ place _ _ hplace hrest ih =>
    rcases List.mem_cons.mp hmem with heq | hmem
    · cases heq
      exact .inr ⟨place, rfl, hrest.getElem hplace⟩
    · exact ih hmem
  | @new table _ _ _ _ _ _ hrest ih =>
    rcases List.mem_cons.mp hmem with heq | hmem
    · cases heq
      exact .inr ⟨table.length, rfl, hrest.getElem (by simp)⟩
    · exact ih hmem

/-- Each place of the table in the end was there before, or a constructor with it was met. -/
theorem placed (h : Tags table instrs after) {i : Nat} (hi : after[i]? = some name) :
    table[i]? = some name ∨ ∃ dst, .con dst (i + 1) name ∈ instrs := by
  have hlater : ∀ {first : Instr} {rest : List Instr},
      (∃ dst, .con dst (i + 1) name ∈ rest) → ∃ dst, .con dst (i + 1) name ∈ first :: rest :=
    fun ⟨dst, hmem⟩ => ⟨dst, List.mem_cons_of_mem _ hmem⟩
  induction h with
  | nil => exact .inl hi
  | other _ _ ih | unit _ ih | known _ _ ih => exact (ih hi).imp_right hlater
  | @new table _ dst other _ _ _ _ ih =>
    rcases ih hi with hplace | hmem
    · rw [List.getElem?_append] at hplace
      split at hplace
      · exact .inl hplace
      · rw [List.getElem?_singleton] at hplace
        split at hplace
        · obtain rfl : i = table.length := by omega
          cases hplace
          exact .inr ⟨dst, List.mem_cons_self⟩
        · cases hplace
    · exact .inr (hlater hmem)

/-! ## The code of terms -/

theorem con (name : String) (dst : Var) (st : ConvertState) :
    Tags st.constructors (walkInstrs (conCode name dst st).1) (conCode name dst st).2.constructors := by
  unfold conCode
  by_cases htrue : name = "True"
  · rw [if_pos htrue]
    exact .other nofun .nil
  by_cases hfalse : name = "False"
  · rw [if_neg htrue, if_pos hfalse]
    exact .other nofun .nil
  by_cases hunit : name = "()"
  · rw [if_neg htrue, if_neg hfalse, if_pos hunit, hunit]
    exact .unit .nil
  rw [if_neg htrue, if_neg hfalse, if_neg hunit]
  cases hi : st.constructors.idxOf? name with
  | some i => exact .known (getElem_of_idxOf? hi) .nil
  | none =>
    refine .new (List.idxOf?_eq_none_iff.mp hi) ?_ .nil
    simp [BuiltIn, htrue, hfalse, hunit]

theorem captures (m : Module) (func : Var) (captures : List Core.NodeId) (st : ConvertState) :
    Tags table (walkInstrs (captureCode m dst func captures st).1) table := by
  fun_induction captureCode m dst func captures st with
  | case1 => exact .nil
  | case2 => exact .other (by simp) .nil
  | case3 func id rest st _ more ih => exact .other (by simp) ih

theorem closure (m : Module) (function : FunctionId) (arity : Nat) (captures : List Core.NodeId)
    (st : ConvertState) :
    Tags table (walkInstrs (closureCode m function arity dst captures st).1) table := by
  cases captures with
  | nil => exact .other nofun .nil
  | cons id rest => exact .other nofun (Tags.captures m _ _ st.next)

end Tags

mutual

/-- The code of a term takes up its constructors. -/
theorem Coded.tags {m t dst st after code} :
    Coded m t dst st code after → Tags st.constructors (walkInstrs code) after.constructors
  | .int | .str | .param | .prim | .global => .other nofun .nil
  | .con => .con ..
  | .closure => by
    rw [(closureCode_counts ..).constructors]
    exact .closure ..
  | .inlined h => h.tags
  | .apply hfunc harg => by
    rw [walkInstrs_append, walkInstrs_append]
    exact (hfunc.tags.append harg.tags).append (.other nofun .nil)
  | .callOne _ harg => by
    rw [walkInstrs_append]
    exact harg.tags.append (.other nofun .nil)
  | .callTwo _ hfirst harg => by
    rw [walkInstrs_append, walkInstrs_append]
    exact (hfirst.tags.append harg.tags).append (.other nofun .nil)
  | .cond htest htrue hfalse => by
    rw [walkInstrs_append]
    exact htest.tags.append (.other nofun ((htrue.tags.append hfalse.tags).append .nil))

theorem CodedOperand.tags {m t x st after code} :
    CodedOperand m t st code x after → Tags st.constructors (walkInstrs code) after.constructors
  | .param => .nil
  | .temp h => h.tags

end

theorem assembleAll_tags (direct : Bool) (m : Module) (rs : List Routine) (st : ConvertState) :
    Tags st.constructors (walkInstrs ((assembleAll direct m rs st).1.flatMap (·.body.instrs)))
      (assembleAll direct m rs st).2.constructors := by
  induction rs generalizing st with
  | nil => exact .nil
  | cons r rest ih =>
    rw [assembleAll, List.flatMap_cons, walkInstrs_append]
    exact (code_coded direct m r.body .result st).tags.append (ih _)

/-! ## The tags in a program -/

/-- A numbering of constructors that the instructions of a program follow. -/
structure Program.NumberedBy (p : Program) (number : String → Nat) : Prop where
  unit : number "()" = 0
  con : ∀ {dst tag name}, .con dst tag name ∈ p.walk → tag = number name

/-- Does an instruction carry the number of its constructor? Most have none. -/
def Instr.numberedBy (number : String → Nat) : Instr → Bool
  | .con _ tag name => tag == number name
  | _ => true

theorem Program.numberedBy_iff {p : Program} :
    p.NumberedBy number ↔ number "()" = 0 ∧ ∀ i ∈ p.walk, i.numberedBy number := by
  refine ⟨fun h => ⟨h.unit, fun i hi => ?_⟩, fun h => ⟨h.1, fun hmem => ?_⟩⟩
  · cases i with
    | con dst tag name => exact beq_iff_eq.mpr (h.con hi)
    | _ => rfl
  · exact beq_iff_eq.mp (h.2 _ hmem)

instance (p : Program) (number : String → Nat) : Decidable (p.NumberedBy number) :=
  decidable_of_iff _ Program.numberedBy_iff.symm

theorem Program.walk_eq (p : Program) :
    p.walk = walkInstrs (p.functions.toList.flatMap (·.body.instrs) ++ p.entry.instrs) := by
  have hflat : ∀ fs : List Function, fs.flatMap (fun f => walkInstrs f.body.instrs) =
      walkInstrs (fs.flatMap (·.body.instrs)) := by
    intro fs
    induction fs with
    | nil => rfl
    | cons f rest ih => rw [List.flatMap_cons, List.flatMap_cons, walkInstrs_append, ih]
  rw [walkInstrs_append, ← hflat]
  rfl

/-- The instructions of a program take up the constructors of its outline. -/
theorem assemble_tags (direct : Bool) (m : Module) (o : Outline) :
    Tags [] (o.assemble direct m ⟨0, []⟩).1.walk o.table := by
  have hmain := (code_coded direct m o.main .mainResult
    (assembleAll direct m o.routines ⟨0, []⟩).2).tags
  have htags := (assembleAll_tags direct m o.routines ⟨0, []⟩).append hmain
  rw [← walkInstrs_append, code_constructors, assembleAll_constructors] at htags
  rw [Program.walk_eq]
  exact htags

/-- A program follows a numbering just if it agrees with the table of its outline. -/
theorem numberedBy_assemble_iff {o : Outline} (direct : Bool) (m : Module) :
    (o.assemble direct m ⟨0, []⟩).1.NumberedBy number ↔ Numbers number o.table := by
  have htags := assemble_tags direct m o
  constructor
  · refine fun h => ⟨h.unit, fun {i name} hi => ?_⟩
    obtain ⟨dst, hmem⟩ := (htags.placed hi).resolve_left nofun
    exact (h.con hmem).symm
  · refine fun hnum => ⟨hnum.unit, fun hmem => ?_⟩
    rcases htags.tag_eq hmem with ⟨rfl, rfl⟩ | ⟨place, rfl, hplace⟩
    · exact hnum.unit.symm
    · exact (hnum.place hplace).symm

/-- The constructors of a program other than the unit value, in the order in which its instructions
first have them. -/
def Program.constructors (p : Program) : List String := p.walk.foldl Instr.enter []

/-- The tags of a program tell its constructors apart. -/
structure Program.Tagged (p : Program) : Prop where
  same : ∀ {dst dst' tag tag' name name'}, .con dst tag name ∈ p.walk →
    .con dst' tag' name' ∈ p.walk → (tag = tag' ↔ name = name')
  unit : ∀ {dst tag name}, .con dst tag name ∈ p.walk →
    (tag = 0 ↔ name = "()")
  place : ∀ {dst i name}, .con dst (i + 1) name ∈ p.walk →
    p.constructors[i]? = some name
  used : ∀ {i name}, p.constructors[i]? = some name →
    ∃ dst, .con dst (i + 1) name ∈ p.walk
  nodup : p.constructors.Nodup
  not_builtIn : ∀ name ∈ p.constructors, ¬ BuiltIn name

theorem assemble_tagged (direct : Bool) (m : Module) (o : Outline) :
    (o.assemble direct m ⟨0, []⟩).1.Tagged := by
  have htags := assemble_tags direct m o
  obtain ⟨number, hinjective, hnumbers⟩ := exists_numbers o.table_distinct
  have hnumbered := (numberedBy_assemble_iff direct m).mpr hnumbers
  have htable : (o.assemble direct m ⟨0, []⟩).1.constructors = o.table := htags.foldl_enter
  refine ⟨?_, ?_, ?_, ?_, ?_, ?_⟩
  · intro _ _ _ _ _ _ hmem hmem'
    rw [hnumbered.con hmem, hnumbered.con hmem', hinjective.eq_iff]
  · intro _ _ _ hmem
    rw [hnumbered.con hmem, ← hnumbers.unit, hinjective.eq_iff]
  · intro _ _ _ hmem
    rw [htable]
    obtain ⟨hzero, _⟩ | ⟨place, hplace, hname⟩ := htags.tag_eq hmem
    · cases hzero
    · exact Nat.succ_injective hplace ▸ hname
  · intro i name hi
    exact (htags.placed (htable ▸ hi)).resolve_left nofun
  · exact htable ▸ o.table_distinct.nodup
  · exact htable ▸ o.table_distinct.not_builtIn

end Lamina.Flat
