import Lamina.Proofs.Flat.Captures
import Lamina.Proofs.Flat.Coded
import Lamina.Proofs.Flat.Constructors

/-!
# Single assignment

Every instruction sets a variable of its own, and reads what was set before it, in its block or in
one around it (`SingleAssignment`). No temporary is set twice in a whole program.
-/

namespace Lamina.Flat

open Lamina.Core (NodeId NodeKind Module LoweredModule)

variable {i : Instr} {m : Module} {defined : List Var} {code : List Instr} {x : Var}

/-- The variables that an instruction reads, apart from those that the blocks inside it read. -/
def Instr.reads : Instr → List Var
  | .copy _ src => [src]
  | .call _ _ args => args
  | .apply _ func arg => [func, arg]
  | .branch _ cond .. => [cond]
  | _ => []

/-- The blocks inside an instruction. -/
def Instr.blocks : Instr → List Block
  | .branch _ _ onTrue trueResult onFalse falseResult =>
    [⟨onTrue, trueResult⟩, ⟨onFalse, falseResult⟩]
  | _ => []

/-- The variables that instructions set, those of the blocks inside them included. -/
def destinations (instrs : List Instr) : List Var := (walkInstrs instrs).map (·.dst)

/-- Instructions read what is defined: what was set before, in the same block or in one around it.
What a block inside them sets counts in that block only, and its result is set at its top level. -/
inductive WellScoped : List Var → List Instr → Prop
  | nil {defined : List Var} : WellScoped defined []
  | cons {defined i rest} (hreads : i.reads ⊆ defined)
      (hblocks : ∀ b ∈ i.blocks, WellScoped defined b.instrs)
      (hresults : ∀ b ∈ i.blocks, b.result ∈ b.instrs.map (·.dst))
      (hrest : WellScoped (i.dst :: defined) rest) : WellScoped defined (i :: rest)

/-- Is a variable a temporary? -/
def Var.isTemp : Var → Bool
  | .temp _ => true
  | _ => false

/-- The body of a function with parameters. -/
structure SingleAssignment (params : List Var) (body : Block) : Prop where
  /-- Parameters and set variables are all different. -/
  distinct : (params ++ destinations body.instrs).Nodup
  reads : WellScoped params body.instrs
  result : body.result ∈ body.instrs.map (·.dst)

/-! ## What is in scope -/

namespace WellScoped

variable {defined more : List Var} {first second : List Instr}

theorem mono (h : WellScoped defined first) (hsub : defined ⊆ more) : WellScoped more first := by
  induction h generalizing more with
  | nil => exact .nil
  | cons hreads _ hresults _ ihblocks ihrest =>
    exact .cons (List.Subset.trans hreads hsub) (fun b hb => ihblocks b hb hsub) hresults
      (ihrest (List.cons_subset_cons _ hsub))

/-- What instructions set at their top level is defined after them. -/
theorem append (h : WellScoped defined first)
    (h' : WellScoped (first.map (·.dst) ++ defined) second) :
    WellScoped defined (first ++ second) := by
  induction h with
  | nil => exact h'
  | @cons defined i rest hreads hblocks hresults _ _ ihrest =>
    refine .cons hreads hblocks hresults (ihrest (h'.mono ?_))
    intro x hx
    simp only [List.map_cons, List.cons_append, List.mem_cons, List.mem_append] at hx ⊢
    tauto

/-- An instruction without others inside it. -/
theorem single {i : Instr} (hblocks : i.blocks = []) (hreads : i.reads ⊆ defined) :
    WellScoped defined [i] :=
  .cons hreads (by simp [hblocks]) (by simp [hblocks]) .nil

end WellScoped

/-! ## Fresh temporaries -/

/-- Different temporaries from a range. -/
structure Fresh (first last : Nat) (vars : List Var) : Prop where
  le : first ≤ last
  nodup : vars.Nodup
  temp : ∀ x ∈ vars, ∃ n, first ≤ n ∧ n < last ∧ x = .temp n

namespace Fresh

variable {first middle last : Nat} {one two : List Var}

theorem nil (h : first ≤ last) : Fresh first last [] := ⟨h, List.nodup_nil, by simp⟩

theorem append (h : Fresh first middle one) (h' : Fresh middle last two) :
    Fresh first last (one ++ two) := by
  refine ⟨Nat.le_trans h.le h'.le, List.nodup_append.mpr ⟨h.nodup, h'.nodup, ?_⟩, ?_⟩
  · rintro x hx _ hy rfl
    obtain ⟨n, _, hn, rfl⟩ := h.temp x hx
    obtain ⟨k, hk, _, heq⟩ := h'.temp _ hy
    cases heq
    omega
  · intro x hx
    rcases List.mem_append.mp hx with hx | hx
    · obtain ⟨n, hle, hlt, rfl⟩ := h.temp x hx
      exact ⟨n, hle, Nat.lt_of_lt_of_le hlt h'.le, rfl⟩
    · obtain ⟨n, hle, hlt, rfl⟩ := h'.temp x hx
      exact ⟨n, Nat.le_trans h.le hle, hlt, rfl⟩

theorem perm (h : Fresh first last one) (hperm : two.Perm one) : Fresh first last two :=
  ⟨h.le, hperm.nodup_iff.mpr h.nodup, fun x hx => h.temp x (hperm.subset hx)⟩

/-- The first temporary of a range, and others after it. -/
theorem cons (h : Fresh (first + 1) last one) : Fresh first last (.temp first :: one) := by
  refine ⟨Nat.le_of_succ_le h.le, List.nodup_cons.mpr ⟨fun hmem => ?_, h.nodup⟩, ?_⟩
  · obtain ⟨n, hle, _, heq⟩ := h.temp _ hmem
    cases heq
    omega
  · intro x hx
    rcases List.mem_cons.mp hx with rfl | hx
    · exact ⟨first, Nat.le_refl _, h.le, rfl⟩
    · obtain ⟨n, hle, hlt, rfl⟩ := h.temp x hx
      exact ⟨n, Nat.le_of_succ_le hle, hlt, rfl⟩

end Fresh

theorem destinations_append (first second : List Instr) :
    destinations (first ++ second) = destinations first ++ destinations second := by
  unfold destinations
  rw [walkInstrs_append, List.map_append]

theorem destinations_cons (h : i.walk = [i]) (rest : List Instr) :
    destinations (i :: rest) = i.dst :: destinations rest := by
  simp [destinations, walkInstrs, h]

/-- What code sets: its destination, and temporaries from a range. -/
def Assigns (first last : Nat) (dst : Var) (code : List Instr) : Prop :=
  ∃ vars, (destinations code).Perm (dst :: vars) ∧ Fresh first last vars

namespace Assigns

variable {first middle late last : Nat} {dst : Var} {code : List Instr} {i : Instr}

theorem single (h : i.walk = [i]) (n : Nat) : Assigns n n i.dst [i] :=
  ⟨[], .of_eq (destinations_cons h []), .nil (Nat.le_refl n)⟩

/-- A first instruction that sets a temporary. -/
theorem cons (h : i.walk = [i]) (hdst : i.dst = .temp first)
    (hcode : Assigns (first + 1) last dst code) : Assigns first last dst (i :: code) := by
  obtain ⟨vars, hperm, hfresh⟩ := hcode
  refine ⟨.temp first :: vars, ?_, hfresh.cons⟩
  rw [destinations_cons h, hdst]
  exact (hperm.cons _).trans (.swap _ _ _)

/-- A last instruction, after others that set temporaries. -/
theorem snoc (h : i.walk = [i]) (hcode : Fresh first last (destinations code)) :
    Assigns first last i.dst (code ++ [i]) := by
  refine ⟨_, ?_, hcode⟩
  rw [destinations_append, destinations_cons h]
  exact List.perm_append_singleton _ _

/-- Code that sets the first temporary of a range. -/
theorem fresh (h : Assigns (first + 1) last (.temp first) code) :
    Fresh first last (destinations code) := by
  obtain ⟨vars, hperm, hfresh⟩ := h
  exact hfresh.cons.perm hperm

theorem branch {test yes no} (hcode : Fresh first middle (destinations code))
    (hyes : Assigns (middle + 1) late (.temp middle) yes)
    (hno : Assigns (late + 1) last (.temp late) no) :
    Assigns first last dst (code ++ [.branch dst test yes (.temp middle) no (.temp late)]) := by
  refine ⟨_, ?_, hcode.append (hyes.fresh.append hno.fresh)⟩
  rw [destinations_append]
  refine List.perm_append_comm.trans ?_
  simp only [destinations, walkInstrs, Instr.walk, List.append_nil, List.map_cons, List.map_append,
    List.cons_append, Instr.dst]
  exact List.perm_append_comm.cons _

end Assigns

theorem captureCode_assigns (m : Module) (dst func : Var) {captures} (hne : captures ≠ [])
    (st : ConvertState) :
    Assigns st.nextTemp (captureCode m dst func captures st).2.nextTemp dst
      (captureCode m dst func captures st).1 := by
  fun_induction captureCode m dst func captures st with
  | case1 => exact absurd rfl hne
  | case2 => exact .single rfl _
  | case3 func id rest st hrest more ih => exact .cons rfl rfl (ih hrest)

theorem closureCode_assigns (m : Module) (function : FunctionId) (arity : Nat) (dst : Var)
    (captures : List NodeId) (st : ConvertState) :
    Assigns st.nextTemp (closureCode m function arity dst captures st).2.nextTemp dst
      (closureCode m function arity dst captures st).1 := by
  cases captures with
  | nil => exact .single rfl _
  | cons id rest => exact .cons rfl rfl (captureCode_assigns m dst _ (List.cons_ne_nil _ _) _)

theorem conCode_assigns (name : String) (dst : Var) (st : ConvertState) :
    Assigns st.nextTemp (conCode name dst st).2.nextTemp dst (conCode name dst st).1 := by
  unfold conCode
  split
  · exact .single rfl _
  · split
    · exact .single rfl _
    · split
      · exact .single rfl _
      · split <;> exact .single rfl _

mutual

/-- The code of a term sets its destination and temporaries that were not in use. -/
theorem Coded.assigns {m t dst st after code} :
    Coded m t dst st code after → Assigns st.nextTemp after.nextTemp dst code
  | .int | .str | .param | .prim | .global => .single rfl _
  | .con => conCode_assigns _ _ _
  | .closure => closureCode_assigns _ _ _ _ _ _
  | .inlined h => h.assigns
  | .apply hfunc harg => by
    have hcode := hfunc.fresh.append harg.fresh
    rw [← destinations_append] at hcode
    exact .snoc rfl hcode
  | .callOne _ harg => .snoc rfl harg.fresh
  | .callTwo _ hfirst harg => by
    have hcode := hfirst.fresh.append harg.fresh
    rw [← destinations_append] at hcode
    exact .snoc rfl hcode
  | .cond htest htrue hfalse => .branch htest.fresh htrue.assigns hfalse.assigns

theorem CodedOperand.fresh {m t x st after code} :
    CodedOperand m t st code x after → Fresh st.nextTemp after.nextTemp (destinations code)
  | .param => .nil (Nat.le_refl _)
  | .temp h => h.assigns.fresh

end

/-! ## Reading what was set -/

theorem captureCode_wellScoped {m} (dst func : Var) {captures} (hne : captures ≠ [])
    (st : ConvertState) {defined} (hfunc : func ∈ defined)
    (hcaptures : captures.map (Conversion.paramVar m) ⊆ defined) :
    WellScoped defined (captureCode m dst func captures st).1 ∧
      dst ∈ (captureCode m dst func captures st).1.map (·.dst) := by
  fun_induction captureCode m dst func captures st generalizing defined with
  | case1 => exact absurd rfl hne
  | case2 func id st =>
    have hid : Conversion.paramVar m id ∈ defined := hcaptures (by simp)
    exact ⟨.single rfl (by simp [Instr.reads, hfunc, hid]), by simp [Instr.dst]⟩
  | case3 func id rest st hrest more ih =>
    obtain ⟨hid, hcaptures⟩ := List.cons_subset.mp hcaptures
    obtain ⟨hscoped, hdst⟩ := ih hrest (List.mem_cons_self ..)
      (List.Subset.trans hcaptures (List.subset_cons_self _ _))
    exact ⟨.cons (by simp [Instr.reads, hfunc, hid]) (by simp [Instr.blocks])
      (by simp [Instr.blocks]) hscoped, List.mem_cons_of_mem _ hdst⟩

theorem closureCode_wellScoped (function : FunctionId) (arity : Nat) (dst : Var)
    (captures : List NodeId) (st : ConvertState)
    (hcaptures : captures.map (Conversion.paramVar m) ⊆ defined) :
    WellScoped defined (closureCode m function arity dst captures st).1 ∧
      dst ∈ (closureCode m function arity dst captures st).1.map (·.dst) := by
  cases captures with
  | nil => exact ⟨.single rfl (List.nil_subset _), by simp [closureCode, Instr.dst]⟩
  | cons id rest =>
    obtain ⟨hscoped, hdst⟩ := captureCode_wellScoped dst (.temp st.nextTemp)
      (List.cons_ne_nil id rest) st.next (List.mem_cons_self ..)
      (List.Subset.trans hcaptures (List.subset_cons_self (Var.temp st.nextTemp) _))
    exact ⟨.cons (List.nil_subset _) (by simp [Instr.blocks]) (by simp [Instr.blocks]) hscoped,
      List.mem_cons_of_mem _ hdst⟩

theorem conCode_wellScoped (name : String) (dst : Var) (st : ConvertState) (defined : List Var) :
    WellScoped defined (conCode name dst st).1 ∧ dst ∈ (conCode name dst st).1.map (·.dst) := by
  have hsingle : ∀ i : Instr, i.blocks = [] → i.reads = [] → i.dst = dst →
      WellScoped defined [i] ∧ dst ∈ [i].map (·.dst) := by
    intro i hblocks hreads hdst
    exact ⟨.single hblocks (by simp [hreads]), by simp [hdst]⟩
  unfold conCode
  split
  · exact hsingle _ rfl rfl rfl
  · split
    · exact hsingle _ rfl rfl rfl
    · split
      · exact hsingle _ rfl rfl rfl
      · split <;> exact hsingle _ rfl rfl rfl

/-- An operand: its code, and the variable that holds its value after it. -/
def Available (defined : List Var) (code : List Instr) (x : Var) : Prop :=
  WellScoped defined code ∧ (x ∈ code.map (·.dst) ∨ x ∈ defined)

/-- An instruction that reads an operand, after the code of it. -/
theorem Available.snoc (h : Available defined code x) (hblocks : i.blocks = [])
    (hreads : i.reads ⊆ [x]) : WellScoped defined (code ++ [i]) := by
  refine h.1.append (.single hblocks (List.Subset.trans hreads ?_))
  exact List.cons_subset.mpr ⟨List.mem_append.mpr h.2, List.nil_subset _⟩

/-- An instruction that reads two operands, after the code of both. -/
theorem Available.pair {one two y} (h : Available defined one x) (h' : Available defined two y)
    (hblocks : i.blocks = []) (hreads : i.reads ⊆ [x, y]) :
    WellScoped defined (one ++ two ++ [i]) := by
  have htwo := h.1.append (h'.1.mono (List.subset_append_right _ _))
  refine htwo.append (.single hblocks (List.Subset.trans hreads ?_))
  simp only [List.cons_subset, List.nil_subset, and_true, List.map_append, List.mem_append]
  exact ⟨h.2.imp_left .inl, h'.2.imp_left .inr⟩

mutual

/-- The code of a term reads what was set before and the parameters that the term mentions, and sets
its destination at its top level. -/
theorem Coded.wellScoped {m t dst st after code defined} :
    Coded m t dst st code after → t.params.map (Conversion.paramVar m) ⊆ defined →
      WellScoped defined code ∧ dst ∈ code.map (·.dst)
  | .int, _ | .str, _ | .prim, _ | .global, _ =>
    ⟨.single rfl (List.nil_subset _), List.mem_singleton_self _⟩
  | .param, hparams => ⟨.single rfl hparams, List.mem_singleton_self _⟩
  | .con, _ => conCode_wellScoped _ _ _ _
  | .closure, hparams => closureCode_wellScoped _ _ _ _ _ hparams
  | .inlined h, hparams => h.wellScoped hparams
  | .apply hfunc harg, hparams => by
    rw [Term.params, List.map_append, List.append_subset] at hparams
    exact ⟨(hfunc.available hparams.1).pair (harg.available hparams.2) rfl (List.Subset.refl _),
      by simp [Instr.dst]⟩
  | .callOne _ harg, hparams => by
    rw [Term.params, List.map_append, List.append_subset] at hparams
    exact ⟨(harg.available hparams.2).snoc rfl (List.Subset.refl _), by simp [Instr.dst]⟩
  | .callTwo _ hfirst harg, hparams => by
    simp only [Term.params, List.map_append, List.append_subset] at hparams
    exact ⟨(hfirst.available hparams.1.2).pair (harg.available hparams.2) rfl
      (List.Subset.refl _), by simp [Instr.dst]⟩
  | .cond htest htrue hfalse, hparams => by
    simp only [Term.params, List.map_append, List.append_subset] at hparams
    obtain ⟨⟨htest', hyes⟩, hno⟩ := hparams
    obtain ⟨hcode, hx⟩ := htest.available htest'
    obtain ⟨hyes, hyesResult⟩ := htrue.wellScoped hyes
    obtain ⟨hno, hnoResult⟩ := hfalse.wellScoped hno
    refine ⟨hcode.append (.cons ?_ ?_ ?_ .nil), by simp [Instr.dst]⟩
    · exact List.cons_subset.mpr ⟨List.mem_append.mpr hx, List.nil_subset _⟩
    · simp only [Instr.blocks, List.forall_mem_cons]
      exact ⟨hyes.mono (List.subset_append_right _ _), hno.mono (List.subset_append_right _ _),
        nofun⟩
    · simp only [Instr.blocks, List.forall_mem_cons]
      exact ⟨hyesResult, hnoResult, nofun⟩

theorem CodedOperand.available {m t x st after code defined} :
    CodedOperand m t st code x after → t.params.map (Conversion.paramVar m) ⊆ defined →
      Available defined code x
  | .param, hparams => ⟨.nil, .inr (hparams (List.mem_singleton_self _))⟩
  | .temp h, hparams => ⟨(h.wellScoped hparams).1, .inl (h.wellScoped hparams).2⟩

end

/-! ## Functions and programs -/

namespace Assigns

variable {first last : Nat} {dst : Var} {code : List Instr}

theorem mem (h : Assigns first last dst code) {x : Var} (hx : x ∈ destinations code) :
    x = dst ∨ ∃ n, x = .temp n := by
  obtain ⟨vars, hperm, hfresh⟩ := h
  rcases List.mem_cons.mp (hperm.subset hx) with rfl | hx
  · exact .inl rfl
  · obtain ⟨n, _, _, rfl⟩ := hfresh.temp x hx
    exact .inr ⟨n, rfl⟩

theorem nodup (h : Assigns first last dst code) (hdst : dst.isTemp = false) :
    (destinations code).Nodup := by
  obtain ⟨vars, hperm, hfresh⟩ := h
  refine hperm.nodup_iff.mpr (List.nodup_cons.mpr ⟨fun hmem => ?_, hfresh.nodup⟩)
  obtain ⟨n, _, _, rfl⟩ := hfresh.temp _ hmem
  cases hdst

theorem temps (h : Assigns first last dst code) (hdst : dst.isTemp = false) :
    Fresh first last ((destinations code).filter Var.isTemp) := by
  obtain ⟨vars, hperm, hfresh⟩ := h
  have hvars : (dst :: vars).filter Var.isTemp = vars := by
    rw [List.filter_cons_of_neg (by simp [hdst])]
    refine List.filter_eq_self.mpr fun x hx => ?_
    obtain ⟨n, _, _, rfl⟩ := hfresh.temp x hx
    rfl
  exact hfresh.perm (hvars ▸ hperm.filter Var.isTemp)

end Assigns

/-- The code of a term whose parameters are different and in scope. -/
theorem Coded.singleAssignment {t dst st after} (h : Coded m t dst st code after) {scope}
    (hscope : scope.Nodup) (hparams : t.params ⊆ scope) (hdst : dst.isTemp = false)
    (hparam : ∀ node, dst ≠ Conversion.paramVar m node) :
    SingleAssignment (scope.map (Conversion.paramVar m)) ⟨code, dst⟩ := by
  obtain ⟨hreads, hresult⟩ := h.wellScoped (List.map_subset _ hparams)
  refine ⟨?_, hreads, hresult⟩
  refine List.nodup_append.mpr ⟨hscope.map (paramVar_injective m), h.assigns.nodup hdst, ?_⟩
  rintro x hx _ hy rfl
  obtain ⟨node, _, rfl⟩ := List.mem_map.mp hx
  rcases h.assigns.mem hy with heq | ⟨n, heq⟩
  · exact hparam node heq.symm
  · cases heq

theorem Routine.singleAssignment {r : Routine} (hnodup : r.scope.Nodup)
    (hparams : r.body.params ⊆ r.scope) (direct : Bool) (m : Module) (st : ConvertState) :
    SingleAssignment (r.function m (r.body.code direct m .result st).1).allParams
      (r.function m (r.body.code direct m .result st).1).body := by
  have h := (code_coded direct m r.body .result st).singleAssignment hnodup hparams rfl nofun
  rwa [Routine.scope, List.map_append] at h

theorem assembleAll_temps (direct : Bool) (m : Module) (rs : List Routine) (st : ConvertState) :
    Fresh st.nextTemp (assembleAll direct m rs st).2.nextTemp
      ((destinations ((assembleAll direct m rs st).1.flatMap (·.body.instrs))).filter
        Var.isTemp) := by
  induction rs generalizing st with
  | nil => exact .nil (Nat.le_refl _)
  | cons r rest ih =>
    have hfirst := (code_coded direct m r.body .result st).assigns.temps rfl
    have happend := hfirst.append (ih _)
    rw [← List.filter_append, ← destinations_append] at happend
    exact happend

/-- No temporary is set twice in a program. -/
theorem assemble_temps (direct : Bool) (m : Module) (o : Outline) :
    (((o.assemble direct m ⟨0, []⟩).1.walk.map (·.dst)).filter Var.isTemp).Nodup := by
  have hfunctions := assembleAll_temps direct m o.routines ⟨0, []⟩
  have hentry := (code_coded direct m o.main .mainResult
    (assembleAll direct m o.routines ⟨0, []⟩).2).assigns.temps rfl
  have happend := hfunctions.append hentry
  rw [← List.filter_append, ← destinations_append] at happend
  rw [Program.walk_eq]
  exact happend.nodup

section

variable {m : Module} {operators : Bool} {tree : Surface.Module} {decls : List Surface.Decl}
  {history : Core.History} {id scope body : NodeId}

/-- A lambda mentions none of its own parameters. -/
theorem Mentions.not_own {x : NodeId} (h : Mentions m id x) (hkind : m.kind id = .lambda scope body) :
    x ∉ m.params id := by
  cases h with
  | here hparam => simp [hkind] at hparam
  | step hnext => simp [evaluated, hkind] at hnext
  | lambda _ _ hown => exact hown

/-- The parameters of a function, captured ones included, are all different. -/
theorem scope_nodup (shaped : m.Shaped) (wellFormed : m.WellFormed decls history)
    (hkind : m.kind id = .lambda scope body) :
    ((planOf m false).1.captures.of id ++ m.params id).Nodup := by
  obtain ⟨hgrowing, _, _⟩ := capturesOf_settles shaped (liftedOf m (globalsOf m))
  refine List.nodup_append.mpr ⟨?_, ?_, ?_⟩
  · obtain ⟨keep, heq⟩ := hgrowing.ordered id
    rw [show (planOf m false).1.captures.of id = _ from heq]
    exact List.nodup_range.filter keep
  · have hscope := wellFormed.hasScopes.lambda.mpr ⟨id, body, hkind⟩
    simpa [Module.params, hkind] using wellFormed.hasScopes.nodup hscope
  · rintro x hcaptured _ hown rfl
    exact (hgrowing.mentions id x hcaptured).not_own hkind hown

/-- The functions and the entry of a program that is assembled from the outline of a lowered
module. -/
theorem assemble_singleAssignment (shaped : m.Shaped) (wellFormed : m.WellFormed decls history)
    {entry : NodeId} {o : Outline} (hcovers : o.Covers (planOf m false).1 entry) (direct : Bool) :
    (∀ f ∈ (o.assemble direct m ⟨0, []⟩).1.functions, SingleAssignment f.allParams f.body) ∧
      SingleAssignment [] (o.assemble direct m ⟨0, []⟩).1.entry := by
  have hmentions := hcovers.mentions_scope
  refine ⟨?_, ?_⟩
  · intro f hf
    obtain ⟨i, hi⟩ := Array.mem_iff_getElem?.mp hf
    obtain ⟨r, st, hr, rfl⟩ := routine_of_getElem hi
    have hmem := List.mem_of_getElem? hr
    obtain ⟨id, hof⟩ := hcovers.node hmem
    obtain ⟨scope, body, hkind, _⟩ := hof.body
    refine Routine.singleAssignment ?_ (hmentions.routine r hmem) direct m st
    rw [hof.scope_eq]
    exact scope_nodup shaped wellFormed hkind
  · exact (code_coded direct m o.main .mainResult _).singleAssignment List.nodup_nil
      hmentions.main rfl nofun

end

end Lamina.Flat
