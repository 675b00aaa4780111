import Lamina.Flat.CText
import Lamina.Proofs.Flat.Scoping

/-!
# Scopes of the C text

The C text of instructions is a list of statements, which are checked as a C compiler does: a name
is declared once, and has a value on every path to where it is read (`check`). The statements of a
body with a single assignment pass the check.
-/

namespace Lamina.Flat.CText

open Lamina.Core (NodeId Module toDigits_injective)

variable {i : Instr} {names : Names} {p : Program} {dst : Var} {instrs : List Instr} {m : Module}

/-! ## Statements -/

/-- The value of a declaration. -/
inductive Value
  /-- An expression without variables. -/
  | constant (text : String)
  | var (name : String)
  /-- A call with variables as arguments. -/
  | call (function : String) (args : List String)

def Value.text : Value → String
  | .constant text => text
  | .var name => name
  | .call function args => function ++ "(" ++ ", ".intercalate args ++ ")"

/-- The variables that a value reads. -/
def Value.uses : Value → List String
  | .constant _ => []
  | .var name => [name]
  | .call _ args => args

inductive Statement
  /-- A declaration with a value, and a comment after it. -/
  | set (name : String) (value : Value) (note : String)
  | declare (name : String)
  | assign (name source : String)
  | choose (test : String) (onTrue onFalse : List Statement)

mutual

/-- The lines of a statement. -/
def Statement.text (depth : Nat) : Statement → String
  | .set name value note => line depth ("lz_val *" ++ name ++ " = " ++ value.text ++ ";" ++ note)
  | .declare name => line depth ("lz_val *" ++ name ++ ";")
  | .assign name source => line depth (name ++ " = " ++ source ++ ";")
  | .choose test onTrue onFalse =>
    line depth ("if (lz_truthy(" ++ test ++ ")) \x7b") ++ statementsText (depth + 1) onTrue ++
      line depth "\x7d else \x7b" ++ statementsText (depth + 1) onFalse ++ line depth "\x7d"

/-- The lines of statements. -/
def statementsText (depth : Nat) : List Statement → String
  | [] => ""
  | s :: rest => s.text depth ++ statementsText depth rest

end

/-- What the value of an instruction is made from; a branch has none. -/
def valueOf (p : Program) : Instr → Value
  | .int _ value => .constant ("lz_alloc_int(" ++ intConstant value ++ ")")
  | .str _ text => .constant ("lz_alloc_str(" ++ Text.quoteC text ++ ")")
  | .con _ tag _ => .constant ("lz_alloc_con(" ++ toString tag ++ ")")
  | .copy _ src => .var src.text
  | .load _ slot => .constant ("lz_program." ++ (p.globals[slot]?.map (·.field)).getD "")
  | .closure _ callee arity => .constant (closureText (calleeSymbol p callee) arity)
  | .call _ op args => .call op.symbol (args.map Var.text)
  | .apply _ func arg => .call "lz_apply" [func.text, arg.text]
  | .branch .. => .constant ""

/-- The comment after an instruction. -/
def noteOf : Instr → String
  | .con _ _ name => " /* " ++ name ++ " */"
  | _ => ""

mutual

/-- The statements of an instruction. -/
def statementsOf (p : Program) (i : Instr) : List Statement :=
  match i with
  | .branch dst cond onTrue trueResult onFalse falseResult =>
    [.declare dst.text,
      .choose cond.text (statements p onTrue ++ [.assign dst.text trueResult.text])
        (statements p onFalse ++ [.assign dst.text falseResult.text])]
  | i => [.set i.dst.text (valueOf p i) (noteOf i)]

/-- The statements of instructions. -/
def statements (p : Program) : List Instr → List Statement
  | [] => []
  | i :: rest => statementsOf p i ++ statements p rest

end

theorem statementsText_append (depth : Nat) (first second : List Statement) :
    statementsText depth (first ++ second) =
      statementsText depth first ++ statementsText depth second := by
  induction first with
  | nil => simp [statementsText]
  | cons s rest ih => simp [statementsText, ih, String.append_assoc]

theorem setText_eq (p : Program) (depth : Nat)
    (h : statementsOf p i = [.set i.dst.text (valueOf p i) ""]) :
    setText depth i.dst (valueOf p i).text = statementsText depth (statementsOf p i) := by
  simp [h, setText, statementsText, Statement.text]

mutual

theorem instrText_eq (p : Program) (depth : Nat) :
    ∀ i : Instr, instrText p depth i = statementsText depth (statementsOf p i)
  | .int dst value => setText_eq p depth (i := .int dst value) rfl
  | .str dst text => setText_eq p depth (i := .str dst text) rfl
  | .copy dst src => setText_eq p depth (i := .copy dst src) rfl
  | .load dst slot => setText_eq p depth (i := .load dst slot) rfl
  | .closure dst callee arity => setText_eq p depth (i := .closure dst callee arity) rfl
  | .call dst op args => setText_eq p depth (i := .call dst op args) rfl
  | .apply dst func arg => by
    rw [← setText_eq p depth (i := .apply dst func arg) rfl]
    simp [instrText, Instr.dst, valueOf, Value.text, String.append_assoc]
  | .con dst tag name => by
    have hvalue : " = lz_alloc_con(" = " = " ++ "lz_alloc_con(" := rfl
    have hnote : "); /* " = ");" ++ " /* " := rfl
    simp [instrText, statementsOf, statementsText, Statement.text, valueOf, Value.text, noteOf,
      Instr.dst, String.append_assoc]
    rw [hvalue, hnote, String.append_assoc, String.append_assoc]
  | .branch dst cond onTrue trueResult onFalse falseResult => by
    simp [instrText, statementsOf, statementsText, Statement.text, statementsText_append,
      instrsText_eq p (depth + 1) onTrue, instrsText_eq p (depth + 1) onFalse,
      String.append_assoc]

/-- The text of instructions is that of their statements. -/
theorem instrsText_eq (p : Program) (depth : Nat) :
    ∀ instrs : List Instr, instrsText p depth instrs = statementsText depth (statements p instrs)
  | [] => rfl
  | i :: rest => by
    rw [instrsText, statements, statementsText_append, instrText_eq p depth i,
      instrsText_eq p depth rest]

end

/-! ## The check -/

/-- The names that are declared where a statement stands, and those that have a value. -/
structure Names where
  declared : List String
  ready : List String

mutual

/-- The names after a statement; none if it declares a name again, or reads one that may have no
value. -/
def Statement.check (names : Names) : Statement → Option Names
  | .set name value _ =>
    if name ∉ names.declared ∧ ∀ x ∈ value.uses, x ∈ names.ready then
      some ⟨name :: names.declared, name :: names.ready⟩
    else none
  | .declare name =>
    if name ∉ names.declared then some ⟨name :: names.declared, names.ready⟩ else none
  | .assign name source =>
    if name ∈ names.declared ∧ source ∈ names.ready then
      some ⟨names.declared, name :: names.ready⟩
    else none
  | .choose test onTrue onFalse =>
    if test ∈ names.ready then do
      let yes ← check names onTrue
      let no ← check names onFalse
      -- what is declared in a block is unknown after it
      some ⟨names.declared, names.declared.filter fun x => x ∈ yes.ready ∧ x ∈ no.ready⟩
    else none

/-- The names after statements. -/
def check (names : Names) : List Statement → Option Names
  | [] => some names
  | s :: rest => do check (← s.check names) rest

end

/-- A function body: its parameters differ, its statements pass the check, and its result has a
value after them. -/
def Accepted (p : Program) (params : List Var) (body : Block) : Prop :=
  (params.map Var.text).Nodup ∧
    ∃ names, check ⟨params.map Var.text, params.map Var.text⟩ (statements p body.instrs) =
      some names ∧ body.result.text ∈ names.ready

theorem check_append (names : Names) (first second : List Statement) :
    check names (first ++ second) = (check names first).bind fun next => check next second := by
  induction first generalizing names with
  | nil => rfl
  | cons s rest ih =>
    simp only [List.cons_append, check, ih]
    cases s.check names <;> rfl

/-- Names after some that got values, `vars` among them. -/
structure Names.Gets (names : Names) (vars : List String) (next : Names) : Prop where
  declared : ∀ x, x ∈ next.declared ↔ x ∈ vars ∨ x ∈ names.declared
  ready : names.ready ⊆ next.ready
  vars : vars ⊆ next.ready
  valid : next.ready ⊆ next.declared

theorem Names.Gets.append {middle next : Names} {one two : List String} (h : names.Gets one middle)
    (h' : middle.Gets two next) : names.Gets (one ++ two) next where
  declared x := by
    rw [h'.declared, h.declared, List.mem_append]
    tauto
  ready := List.Subset.trans h.ready h'.ready
  vars := List.append_subset.mpr ⟨List.Subset.trans h.vars h'.ready, h'.vars⟩
  valid := h'.valid


theorem uses_valueOf (p : Program) (h : i.blocks = []) :
    (valueOf p i).uses = i.reads.map Var.text := by
  cases i <;> first | rfl | cases h

theorem statementsOf_eq (p : Program) (h : i.blocks = []) :
    statementsOf p i = [.set i.dst.text (valueOf p i) (noteOf i)] := by
  cases i <;> first | rfl | cases h

/-- The names after one of the two blocks of a branch, with the assignment at its end. -/
theorem check_block {source : Var} (hdst : dst.text ∈ names.declared)
    (hsource : source ∈ instrs.map (·.dst))
    (h : ∃ next, check names (statements p instrs) = some next ∧
      names.Gets (instrs.map (·.dst.text)) next) :
    ∃ next, check names (statements p instrs ++ [.assign dst.text source.text]) = some next ∧
      names.ready ⊆ next.ready ∧ dst.text ∈ next.ready := by
  obtain ⟨next, hcheck, hgets⟩ := h
  have hready : source.text ∈ next.ready := by
    obtain ⟨i, hi, rfl⟩ := List.mem_map.mp hsource
    exact hgets.vars (List.mem_map_of_mem hi)
  refine ⟨⟨next.declared, dst.text :: next.ready⟩, ?_, ?_, List.mem_cons_self ..⟩
  · have hdeclared := (hgets.declared dst.text).mpr (.inr hdst)
    simp [check_append, hcheck, check, Statement.check, hdeclared, hready]
  · exact List.Subset.trans hgets.ready (List.subset_cons_self _ _)

/-- An instruction without others inside it. -/
theorem check_simple (hblocks : i.blocks = []) (hvalid : names.ready ⊆ names.declared)
    (hnew : i.dst.text ∉ names.declared) (hreads : i.reads.map Var.text ⊆ names.ready) :
    ∃ next, check names (statementsOf p i) = some next ∧ names.Gets [i.dst.text] next := by
  refine ⟨⟨i.dst.text :: names.declared, i.dst.text :: names.ready⟩, ?_, by simp,
    List.subset_cons_self _ _, by simp, List.cons_subset_cons _ hvalid⟩
  have huses : ∀ x ∈ (valueOf p i).uses, x ∈ names.ready := by
    rw [uses_valueOf p hblocks]
    exact fun x hx => hreads hx
  rw [statementsOf_eq p hblocks, check, Statement.check, if_pos ⟨hnew, huses⟩]
  rfl

/-- A branch: its destination is declared before the blocks, and both give it a value. -/
theorem check_branch {cond onTrue onFalse trueResult falseResult}
    (hvalid : names.ready ⊆ names.declared) (hnew : dst.text ∉ names.declared)
    (hcond : cond.text ∈ names.ready)
    (hyes : ∃ next, check ⟨dst.text :: names.declared, names.ready⟩
        (statements p onTrue ++ [.assign dst.text trueResult.text]) = some next ∧
      names.ready ⊆ next.ready ∧ dst.text ∈ next.ready)
    (hno : ∃ next, check ⟨dst.text :: names.declared, names.ready⟩
        (statements p onFalse ++ [.assign dst.text falseResult.text]) = some next ∧
      names.ready ⊆ next.ready ∧ dst.text ∈ next.ready) :
    ∃ next, check names (statementsOf p (.branch dst cond onTrue trueResult onFalse falseResult)) =
      some next ∧ names.Gets [dst.text] next := by
  obtain ⟨yes, hyes, hyesReady, hyesDst⟩ := hyes
  obtain ⟨no, hno, hnoReady, hnoDst⟩ := hno
  refine ⟨⟨dst.text :: names.declared, (dst.text :: names.declared).filter fun x =>
    x ∈ yes.ready ∧ x ∈ no.ready⟩, ?_, by simp, ?_, ?_, List.filter_subset_self _⟩
  · simp [statementsOf, check, Statement.check, hnew, hcond, hyes, hno]
  · intro x hx
    have hdeclared : x ∈ dst.text :: names.declared := List.mem_cons_of_mem _ (hvalid hx)
    exact List.mem_filter.mpr ⟨hdeclared, by simp [hyesReady hx, hnoReady hx]⟩
  · intro x hx
    obtain rfl := List.mem_singleton.mp hx
    exact List.mem_filter.mpr ⟨List.mem_cons_self .., by simp [hyesDst, hnoDst]⟩

/-- What an instruction with a block sets: its destination, then what the block sets. -/
theorem block_sublist {b : Block} (hb : b ∈ i.blocks) :
    (i.dst :: destinations b.instrs).Sublist (i.walk.map (·.dst)) := by
  cases i with
  | branch dst cond onTrue trueResult onFalse falseResult =>
    rw [Instr.walk, List.map_cons, List.map_append]
    refine .cons_cons _ ?_
    simp only [Instr.blocks, List.mem_cons, List.not_mem_nil, or_false] at hb
    rcases hb with rfl | rfl
    · exact List.sublist_append_left _ _
    · exact List.sublist_append_right _ _
  | _ => cases hb

/-- Instructions in scope, whose destinations are new and have different texts, pass the check. -/
theorem check_of_wellScoped (p : Program) {defined : List Var} (h : WellScoped defined instrs)
    (hvalid : names.ready ⊆ names.declared) (hdefined : defined.map Var.text ⊆ names.ready)
    (hnodup : ((destinations instrs).map Var.text).Nodup)
    (hnew : ∀ x ∈ (destinations instrs).map Var.text, x ∉ names.declared) :
    ∃ next, check names (statements p instrs) = some next ∧
      names.Gets (instrs.map (·.dst.text)) next := by
  induction h generalizing names with
  | nil => exact ⟨names, rfl, by simp, List.Subset.refl _, List.nil_subset _, hvalid⟩
  | @cons defined i rest hreads hblocks hresults hrest ihblocks ihrest =>
    have hdsts : destinations (i :: rest) = i.walk.map (·.dst) ++ destinations rest := by
      simp [destinations, walkInstrs]
    have hwalk : i.dst.text ∈ (i.walk.map (·.dst)).map Var.text := by
      cases i <;> simp [Instr.walk]
    rw [hdsts, List.map_append] at hnodup hnew
    obtain ⟨hwalkNodup, hrestNodup, hdisjoint⟩ := List.nodup_append.mp hnodup
    have hreads := List.Subset.trans (List.map_subset Var.text hreads) hdefined
    have hdst := hnew _ (List.mem_append_left _ hwalk)
    -- what the first instruction does; the rest follows by induction
    suffices hfirst : ∃ next, check names (statementsOf p i) = some next ∧
        names.Gets [i.dst.text] next by
      obtain ⟨middle, hcheck, hgets⟩ := hfirst
      have hdefined' : (i.dst :: defined).map Var.text ⊆ middle.ready := by
        rw [List.map_cons, List.cons_subset]
        exact ⟨hgets.vars (List.mem_singleton_self _), List.Subset.trans hdefined hgets.ready⟩
      have hnew' : ∀ x ∈ (destinations rest).map Var.text, x ∉ middle.declared := by
        intro x hx hmem
        rcases (hgets.declared x).mp hmem with hmem | hmem
        · exact hdisjoint _ hwalk x hx (List.mem_singleton.mp hmem).symm
        · exact hnew x (List.mem_append_right _ hx) hmem
      obtain ⟨next, hcheck', hgets'⟩ := ihrest hgets.valid hdefined' hrestNodup hnew'
      refine ⟨next, ?_, hgets.append hgets'⟩
      rw [statements, check_append, hcheck, Option.bind_some, hcheck']
    have hblock : ∀ b ∈ i.blocks,
        ∃ next, check ⟨i.dst.text :: names.declared, names.ready⟩
            (statements p b.instrs ++ [.assign i.dst.text b.result.text]) = some next ∧
          names.ready ⊆ next.ready ∧ i.dst.text ∈ next.ready := by
      intro b hb
      have hsub := (block_sublist hb).map Var.text
      obtain ⟨hout, hinside⟩ := List.nodup_cons.mp (hsub.nodup hwalkNodup)
      refine check_block (List.mem_cons_self ..) (hresults b hb)
        (ihblocks b hb (List.Subset.trans hvalid (List.subset_cons_self _ _)) hdefined hinside ?_)
      intro x hx hmem
      rcases List.mem_cons.mp hmem with rfl | hmem
      · exact hout hx
      · exact hnew x (List.mem_append_left _ (hsub.subset (List.mem_cons_of_mem _ hx))) hmem
    cases i with
    | branch dst cond onTrue trueResult onFalse falseResult =>
      exact check_branch hvalid hdst (hreads (by simp [Instr.reads]))
        (hblock ⟨onTrue, trueResult⟩ (by simp [Instr.blocks]))
        (hblock ⟨onFalse, falseResult⟩ (by simp [Instr.blocks]))
    | _ => exact check_simple rfl hvalid hdst hreads

/-! ## Texts of variables -/

theorem toList_param (node : NodeId) (name : String) :
    (Var.param node name).text.toList =
      'p' :: (Nat.toDigits 10 node ++ '_' :: (mangle name).toList) := by
  simp [Var.text, Nat.repr_eq_ofList_toDigits]

/-- The digits of a number end at an underscore. -/
theorem takeWhile_toDigits (n : Nat) (rest : List Char) :
    (Nat.toDigits 10 n ++ '_' :: rest).takeWhile Char.isDigit = Nat.toDigits 10 n := by
  rw [List.takeWhile_append_of_pos]
  · simp
  · intro c hc
    exact Nat.isDigit_of_mem_toDigits (by omega) (by omega) hc

/-- Variables with one text are the same, up to the name of a parameter. -/
theorem eq_of_text_eq {x y : Var} (h : x.text = y.text) :
    x = y ∨ ∃ node one two, x = .param node one ∧ y = .param node two := by
  replace h := congrArg String.toList h
  cases x <;> cases y
  case param.param node one other two =>
    simp only [toList_param, List.cons.injEq, true_and] at h
    have hdigits := congrArg (List.takeWhile Char.isDigit) h
    rw [takeWhile_toDigits, takeWhile_toDigits] at hdigits
    cases toDigits_injective hdigits
    exact .inr ⟨node, one, two, rfl, rfl⟩
  case temp.temp n k =>
    simp only [Var.text, String.toList_append, Nat.toString_eq_ofList_toDigits,
      String.toList_ofList] at h
    rw [toDigits_injective (List.append_cancel_left h)]
    exact .inl rfl
  all_goals first | exact .inl rfl | simp [Var.text] at h

/-- A parameter has the name of its node. -/
def Labelled (m : Module) (x : Var) : Prop :=
  ∀ node name, x = .param node name → x = Conversion.paramVar m node

theorem nodup_texts {vars : List Var} (h : vars.Nodup) (hlabels : ∀ x ∈ vars, Labelled m x) :
    (vars.map Var.text).Nodup := by
  refine h.map_on fun x hx y hy heq => ?_
  rcases eq_of_text_eq heq with heq | ⟨node, one, two, hone, htwo⟩
  · exact heq
  · exact (hlabels x hx node one hone).trans (hlabels y hy node two htwo).symm

theorem accepted_of_singleAssignment (p : Program) {params body} (h : SingleAssignment params body)
    (hlabels : ∀ x ∈ params ++ destinations body.instrs, Labelled m x) :
    Accepted p params body := by
  have htexts := nodup_texts h.distinct hlabels
  rw [List.map_append] at htexts
  obtain ⟨hparams, hdsts, hdisjoint⟩ := List.nodup_append.mp htexts
  refine ⟨hparams, ?_⟩
  have hnew : ∀ x ∈ (destinations body.instrs).map Var.text, x ∉ params.map Var.text :=
    fun x hx hmem => hdisjoint x hmem x hx rfl
  obtain ⟨next, hcheck, hgets⟩ :=
    @check_of_wellScoped ⟨params.map Var.text, params.map Var.text⟩ _ p _ h.reads
      (List.Subset.refl _) (List.Subset.refl _) hdsts hnew
  refine ⟨next, hcheck, ?_⟩
  obtain ⟨i, hi, hresult⟩ := List.mem_map.mp h.result
  rw [← hresult]
  exact hgets.vars (List.mem_map_of_mem hi)

/-- The variables of the code of a term. -/
theorem labelled_of_coded {t st after code} (h : Coded m t dst st code after)
    (hdst : Labelled m dst) (scope : List NodeId) :
    ∀ x ∈ scope.map (Conversion.paramVar m) ++ destinations code, Labelled m x := by
  intro x hx
  rcases List.mem_append.mp hx with hx | hx
  · obtain ⟨node, _, rfl⟩ := List.mem_map.mp hx
    rintro other name heq
    cases heq
    rfl
  · rcases h.assigns.mem hx with rfl | ⟨n, rfl⟩
    · exact hdst
    · simp [Labelled]

/-- The C text of an assembled program whose functions have single assignments. -/
theorem assemble_accepted (direct : Bool) (m : Module) (o : Outline)
    (hp : (o.assemble direct m ⟨0, []⟩).1 = p)
    (hfunctions : ∀ f ∈ p.functions, SingleAssignment f.allParams f.body)
    (hentry : SingleAssignment [] p.entry) :
    (∀ f ∈ p.functions, Accepted p f.allParams f.body) ∧ Accepted p [] p.entry := by
  subst hp
  refine ⟨fun f hf => ?_, ?_⟩
  · refine accepted_of_singleAssignment (m := m) _ (hfunctions f hf) ?_
    obtain ⟨i, hi⟩ := Array.mem_iff_getElem?.mp hf
    obtain ⟨r, st, _, rfl⟩ := routine_of_getElem hi
    have hresult : Labelled m .result := by simp [Labelled]
    have hlabels := labelled_of_coded (code_coded direct m r.body .result st) hresult r.scope
    rwa [Routine.scope, List.map_append] at hlabels
  · refine accepted_of_singleAssignment (m := m) _ hentry ?_
    have hresult : Labelled m .mainResult := by simp [Labelled]
    exact labelled_of_coded (code_coded direct m o.main .mainResult _) hresult []

end Lamina.Flat.CText
