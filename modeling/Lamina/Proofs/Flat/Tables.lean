import Lamina.Proofs.Flat.Captures
import Lamina.Proofs.Flat.Coded
import Lamina.Proofs.Flat.Constructors
import Lamina.Proofs.Flat.Safety

/-!
# The tables of a program

A program refers to its functions and globals by their places. The functions stand where their ids
say, top-level functions first and in the order of the text, and each of these has the global slot
of the same place; and whatever an instruction refers to is there, with the arity that the
instruction states.
-/

namespace Lamina.Flat

open Lamina.Core (NodeId NodeKind Module LoweredModule)

variable {m : Module} {p : Plan} {entry id : NodeId} {o : Outline} {i : Nat} {r : Routine}
  {inside : Core.ScopeId} {names : Core.Names}

/-! ## What instructions refer to -/

/-- An instruction agrees with the arities of the functions and with the number of global slots. -/
def Instr.Links (arity? : FunctionId → Option Nat) (slots : Nat) : Instr → Prop
  | .closure _ (.function id) arity => arity? id = some arity
  | .closure _ (.intrinsic op) arity => arity = op.arity
  | .call _ op args => args.length = op.arity
  | .load _ slot => slot < slots
  | _ => True

/-- The arity of a routine. -/
def Outline.arity? (o : Outline) (id : FunctionId) : Option Nat :=
  o.routines[id]?.map (·.scope.length)

/-- All instructions agree with the outline they belong to. -/
def Outline.Linked (o : Outline) (instrs : List Instr) : Prop :=
  ∀ i ∈ walkInstrs instrs, i.Links o.arity? o.globals.size

namespace Outline.Linked

variable {o : Outline} {m : Module}

theorem nil : o.Linked [] := by
  intro i hi
  cases hi

theorem append {first second : List Instr} (h : o.Linked first) (h' : o.Linked second) :
    o.Linked (first ++ second) := by
  intro i hi
  rw [walkInstrs_append] at hi
  exact (List.mem_append.mp hi).elim (h i) (h' i)

/-- An instruction without others inside it. -/
theorem cons {i rest} (hwalk : i.walk = [i]) (hlinks : i.Links o.arity? o.globals.size)
    (h : o.Linked rest) : o.Linked (i :: rest) := by
  intro j hj
  rw [walkInstrs, hwalk] at hj
  rcases List.mem_cons.mp hj with rfl | hj
  · exact hlinks
  · exact h j hj

theorem branch {dst test yesVar noVar yes no} (hyes : o.Linked yes) (hno : o.Linked no) :
    o.Linked [.branch dst test yes yesVar no noVar] := by
  intro i hi
  simp only [walkInstrs, Instr.walk, List.append_nil, List.mem_cons, List.mem_append] at hi
  rcases hi with rfl | hi | hi
  · trivial
  · exact hyes i hi
  · exact hno i hi

theorem constructor (name : String) (dst : Var) (st : ConvertState) :
    o.Linked (conCode name dst st).1 := by
  unfold conCode
  split
  · exact cons rfl trivial nil
  · split
    · exact cons rfl trivial nil
    · split
      · exact cons rfl trivial nil
      · split <;> exact cons rfl trivial nil

theorem captures (m : Module) (dst func : Var) (captures : List NodeId) (st : ConvertState) :
    o.Linked (captureCode m dst func captures st).1 := by
  fun_induction captureCode m dst func captures st with
  | case1 => exact nil
  | case2 => exact cons rfl trivial nil
  | case3 func id rest st _ more ih => exact cons rfl trivial ih

theorem closure {function arity} (harity : o.arity? function = some arity) (m : Module) (dst : Var)
    (captures : List NodeId) (st : ConvertState) :
    o.Linked (closureCode m function arity dst captures st).1 := by
  cases captures with
  | nil => exact cons rfl harity nil
  | cons id rest => exact cons rfl harity (Linked.captures m dst _ _ _)

end Outline.Linked

mutual

/-- The code of a term that fits an outline agrees with it. -/
theorem Coded.linked {o : Outline} {m t dst st after code} :
    Coded m t dst st code after → o.Fits t → o.Linked code
  | .int, _ | .str, _ | .param, _ => .cons rfl trivial .nil
  | .con, _ => .constructor _ _ _
  | .prim, _ => .cons rfl rfl .nil
  | .global, ⟨g, _, hslot, _⟩ => .cons rfl (Array.getElem?_eq_some_iff.mp hslot).1 .nil
  | .closure, ⟨r, hroutine, hlen, _⟩ =>
    .closure (by rw [Outline.arity?, hroutine, ← hlen]; rfl) _ _ _ _
  | .inlined h, hfits => h.linked hfits
  | .apply hfunc harg, hfits =>
    ((hfunc.linked hfits.1).append (harg.linked hfits.2)).append (.cons rfl trivial .nil)
  | .callOne hop harg, hfits => (harg.linked hfits.2).append (.cons rfl hop.symm .nil)
  | .callTwo hop hfirst harg, hfits =>
    ((hfirst.linked hfits.1.2).append (harg.linked hfits.2)).append (.cons rfl hop.symm .nil)
  | .cond htest htrue hfalse, hfits =>
    (htest.linked hfits.1).append (.branch (htrue.linked hfits.2.1) (hfalse.linked hfits.2.2))

theorem CodedOperand.linked {o : Outline} {m t x st after code} :
    CodedOperand m t st code x after → o.Fits t → o.Linked code
  | .param, _ => .nil
  | .temp h, hfits => h.linked hfits

end

/-! ## Where functions stand -/

/-- In a list without repetitions a node has one place. -/
theorem lastIndex_of_getElem {nodes} (hnodup : nodes.Nodup) (h : nodes[i]? = some id) :
    Plan.lastIndex? nodes id = some i := by
  obtain ⟨j, hj⟩ := exists_lastIndex (List.mem_of_getElem? h)
  obtain ⟨hi, heq⟩ := List.getElem?_eq_some_iff.mp h
  obtain ⟨hj', heq'⟩ := List.getElem?_eq_some_iff.mp (getElem_of_lastIndex hj)
  rw [hj, (hnodup.getElem_inj_iff).mp (heq'.trans heq.symm)]

/-- What functions show of their routines is the same for each assembly. -/
theorem assembleAll_map {β} {shown : Function → β} {ofRoutine}
    (h : ∀ r instrs, shown (r.function m instrs) = ofRoutine r) (direct : Bool) (rs : List Routine)
    (st : ConvertState) : (assembleAll direct m rs st).1.map shown = rs.map ofRoutine := by
  induction rs generalizing st with
  | nil => rfl
  | cons r rest ih => simp only [assembleAll, List.map_cons, h, ih]

theorem map_eq_map_of_forall₂ {α β γ} {f : α → γ} {g : β → γ} {as bs}
    (h : List.Forall₂ (fun a b => f a = g b) as bs) : bs.map g = as.map f := by
  induction h with
  | nil => rfl
  | cons heq _ ih => rw [List.map_cons, List.map_cons, heq, ih]

/-- The routines of an outline are those of the parts of its plan. -/
theorem Plan.outline_parts (h : p.outline entry = .ok o) :
    List.Forall₂ (fun part r => p.routine part = .ok r) p.parts o.routines := by
  unfold Plan.outline at h
  obtain ⟨routines, hroutines, h⟩ := ok_of_bind h
  obtain ⟨main, _, h⟩ := ok_of_bind h
  cases h
  exact forall₂_of_mapM hroutines

theorem routine_id_kind {part} (h : p.routine part = .ok r) :
    ((p.function? part.1).getD 0, part.2.1) = (r.id, r.kind) := by
  unfold Plan.routine at h
  split at h
  · obtain ⟨t, _, rfl⟩ := ok_of_map h
    rfl
  · cases h

/-- The routines have the ids and the kinds of their parts. -/
theorem routines_id_kind (h : p.outline entry = .ok o) :
    o.routines.map (fun r => (r.id, r.kind)) =
      p.parts.map fun part => ((p.function? part.1).getD 0, part.2.1) :=
  map_eq_map_of_forall₂ ((Plan.outline_parts h).imp fun _ _ => routine_id_kind)

/-- The part that a routine was made from. -/
theorem part_of_getElem (h : p.outline entry = .ok o) (hr : o.routines[i]? = some r) :
    ∃ part, p.parts[i]? = some part ∧ p.nodes[i]? = some part.1 ∧
      r.id = (p.function? part.1).getD 0 ∧ r.kind = part.2.1 := by
  have hget := congrArg (·[i]?) (routines_id_kind h)
  simp only [List.getElem?_map, hr, Option.map_some] at hget
  obtain ⟨part, hpart, heq⟩ := Option.map_eq_some_iff.mp hget.symm
  obtain ⟨hid, hkind⟩ := Prod.mk.inj heq
  refine ⟨part, hpart, ?_, hid.symm, hkind.symm⟩
  rw [← p.parts_nodes, List.getElem?_map, hpart]
  rfl

/-- Top-level functions come first, then the lifted ones, numbered from zero. -/
theorem Plan.parts_kind (p : Plan) :
    p.parts.map (·.2.1) = (p.globals.map (·.2)).map .named ++
      (p.lifted.map p.module.graph.name).zipIdx.map fun (binding, index) =>
        .lifted index binding := by
  unfold Plan.parts
  simp [List.zipIdx_map, Function.comp_def]

theorem parts_of_global {k : Nat} {name : String} (h : p.globals[k]? = some (id, name)) :
    p.parts[k]? = some (id, .named name, "lz_fn_" ++ mangle name) := by
  have hlt := (List.getElem?_eq_some_iff.mp h).1
  unfold Plan.parts
  rw [List.getElem?_append_left (by simpa using hlt), List.getElem?_map, h]
  rfl

theorem globalsOf_sublist (m : Module) :
    ((globalsOf m).map (·.1)).Sublist (m.definitions.map (·.2)) := by
  rw [globalsOf_eq, List.map_map]
  exact List.filter_sublist.map _

/-- No lambda becomes two functions. -/
theorem planOf_nodes_nodup (regular : Regular m) : (planOf m false).1.nodes.Nodup := by
  refine List.nodup_append.mpr ⟨regular.nodup.sublist (globalsOf_sublist m),
    liftedOf_nodup regular, ?_⟩
  rintro id hglobal _ hlifted rfl
  exact liftedOf_not_global m (globalsOf m) id hlifted hglobal

/-! ## Top-level functions in the text -/

/-- Does a definition with this right side bind a function? Local bindings in front of it do not
matter. -/
def isFunction : Surface.Expr → Bool
  | .lambda .. => true
  | .letIn _ body _ => isFunction body
  | _ => false

/-- The names of the top-level functions, in the order of the text. -/
def functionNames (decls : List Surface.Decl) : List String :=
  decls.filterMap fun
    | .function name .. => some name.name
    | .value name body _ => if isFunction body then some name.name else none
    | _ => none

theorem isLambda_of_lowered {e kind} (h : Core.Lowered m inside names e kind) :
    isLambda kind = isFunction e := by
  -- on the size of the expression, since a `let` leads to its body
  induction hsize : sizeOf e using Nat.strong_induction_on generalizing e inside names with
  | _ size ih =>
    subst hsize
    cases h with
    | var h => cases h <;> rfl
    | @letIn _ _ _ _ body _ _ _ _ _ hbody =>
      rw [isFunction]
      exact ih (sizeOf body) (by simp only [Surface.Expr.letIn.sizeOf_spec]; omega) hbody rfl
    | lambda h =>
      cases h
      rfl
    | _ => rfl

/-- The bindings of a block to lambdas are those of its functions. -/
theorem functionNames_of_lowered {decls frame} (h : Core.LoweredBlock m inside names decls frame) :
    (frame.filter fun b => isLambda (m.kind b.2)).map (·.1) = functionNames decls := by
  induction decls generalizing frame with
  | nil =>
    cases h
    rfl
  | cons decl rest ih =>
    cases h with
    | @function _ _ name _ _ _ _ node _ hnode hrest =>
      have hkind : isLambda (m.kind node) = true := by
        generalize m.kind node = kind at hnode
        cases hnode
        rfl
      simp [functionNames, hkind, ih hrest]
    | @value _ _ name e _ _ node _ hnode hrest =>
      have hkind := isLambda_of_lowered hnode
      cases hfunction : isFunction e <;>
        simp [functionNames, hkind, hfunction, ih hrest]
    | signature hrest => exact ih hrest

theorem globalsOf_names {operators tree} (h : LoweredModule m operators tree) :
    (globalsOf m).map (·.2) = functionNames tree.decls := by
  rw [globalsOf_eq, List.map_map, ← functionNames_of_lowered h.definitions]
  rfl

/-! ## Consistent tables -/

/-- The tables of a program whose top-level functions have the names given, and what its
instructions say of them. -/
structure Program.Consistent (p : Program) (names : List String) : Prop where
  /-- Functions stand where their ids say. -/
  id : ∀ {i : Nat} {f : Function}, p.functions[i]? = some f → f.id = i
  /-- Top-level functions come first, then the lifted ones with their numbers. -/
  kind : ∃ bindings : List (Option String), p.functions.toList.map (·.kind) =
    names.map .named ++ bindings.zipIdx.map fun (binding, index) => .lifted index binding
  slots : p.globals.size = names.length
  /-- A global slot belongs to the top-level function at its place. -/
  slot : ∀ {k : Nat} {g : GlobalSlot}, p.globals[k]? = some g →
    g.function = k ∧ ∃ f, p.functions[k]? = some f ∧ f.kind = .named g.name ∧ f.captures = [] ∧
      g.arity = f.arity
  arity_pos : ∀ f ∈ p.functions, 1 ≤ f.arity
  /-- Every instruction, at any depth, states the arities that are in the tables. -/
  links : ∀ i ∈ p.walk, i.Links (fun id => p.functions[id]?.map (·.arity)) p.globals.size

theorem arity_function (m : Module) (r : Routine) (instrs : List Instr) :
    (r.function m instrs).arity = r.scope.length := by
  simp [Function.arity, Routine.function, Routine.scope]

theorem arity?_assemble (direct : Bool) (m : Module) (o : Outline) (id : FunctionId) :
    (o.assemble direct m ⟨0, []⟩).1.functions[id]?.map (·.arity) = o.arity? id := by
  have hmap := assembleAll_map (arity_function m) direct o.routines ⟨0, []⟩
  have hget := congrArg (·[id]?) hmap
  simpa [Outline.assemble, Outline.arity?] using hget

section

variable {m : Module} {operators : Bool} {tree : Surface.Module} {entry : NodeId} {o : Outline}

/-- Whatever the instructions of an assembled program refer to is there. -/
theorem assemble_links (hsound : o.Sound) (direct : Bool) {i : Instr}
    (h : i ∈ (o.assemble direct m ⟨0, []⟩).1.walk) :
    i.Links (fun id => (o.assemble direct m ⟨0, []⟩).1.functions[id]?.map (·.arity))
      o.globals.size := by
  rw [show (fun id => _) = o.arity? from funext (arity?_assemble direct m o)]
  rcases List.mem_append.mp h with hfunction | hentry
  · obtain ⟨f, hf, hi⟩ := List.mem_flatMap.mp hfunction
    obtain ⟨place, hplace⟩ := List.mem_iff_getElem?.mp hf
    obtain ⟨r, st, hr, rfl⟩ := routine_of_getElem (Array.getElem?_toList ▸ hplace)
    exact (code_coded direct m r.body .result st).linked (hsound.fits r (List.mem_of_getElem? hr))
      i hi
  · exact (code_coded direct m o.main .mainResult _).linked hsound.fits_main i hentry

/-- The functions of an assembled program are of the kinds of the parts of its plan. -/
theorem assemble_kinds (h : p.outline entry = .ok o) (direct : Bool) :
    (o.assemble direct m ⟨0, []⟩).1.functions.toList.map (·.kind) = p.parts.map (·.2.1) := by
  have hkinds : o.routines.map (·.kind) = p.parts.map (·.2.1) := by
    simpa [Function.comp_def] using congrArg (List.map Prod.snd) (routines_id_kind h)
  have hshown : ∀ (r : Routine) instrs, (r.function m instrs).kind = r.kind := fun _ _ => rfl
  show (assembleAll direct m o.routines ⟨0, []⟩).1.toArray.toList.map (·.kind) = _
  rw [List.toList_toArray, assembleAll_map hshown, hkinds]

/-- The tables of a program that is assembled from the outline of a lowered module. -/
theorem assemble_consistent (regular : Regular m) (hlowered : LoweredModule m operators tree)
    (h : (planOf m false).1.outline entry = .ok o) (direct : Bool) :
    (o.assemble direct m ⟨0, []⟩).1.Consistent (functionNames tree.decls) := by
  have hcovers := Plan.outline_covers h
  have hnodes := planOf_nodes_nodup regular
  have hnames : (planOf m false).1.globals.map (·.2) = functionNames tree.decls :=
    globalsOf_names hlowered
  have hglobals : o.globals.toList = _ := hcovers.globals
  refine ⟨?_, ?_, ?_, ?_, ?_, fun i hi => assemble_links
    (hcovers.sound regular.shaped (planOf_settled m false)) direct hi⟩
  · intro i f hf
    obtain ⟨r, st, hr, rfl⟩ := routine_of_getElem hf
    obtain ⟨part, _, hnode, hid, _⟩ := part_of_getElem h hr
    have hfunction : (planOf m false).1.function? part.1 = some i :=
      lastIndex_of_getElem hnodes hnode
    show r.id = i
    rw [hid, hfunction]
    rfl
  · refine ⟨(planOf m false).1.lifted.map m.graph.name, ?_⟩
    rw [assemble_kinds h, ← hnames, Plan.parts_kind]
    rfl
  · show o.globals.size = _
    rw [← hnames, List.length_map, ← Array.length_toList, hglobals, List.length_map]
  · intro k g hg
    have hget : o.globals.toList[k]? = some g := by
      rw [Array.getElem?_toList]
      exact hg
    rw [hglobals, List.getElem?_map] at hget
    obtain ⟨⟨id, name⟩, hglobal, rfl⟩ := Option.map_eq_some_iff.mp hget
    have hnode : (planOf m false).1.nodes[k]? = some id := by
      rw [← Plan.parts_nodes, List.getElem?_map, parts_of_global hglobal]
      rfl
    have hfunction : (planOf m false).1.function? id = some k := lastIndex_of_getElem hnodes hnode
    have hcaptures : (planOf m false).1.captures.of id = [] :=
      planOf_settled m false id (List.mem_map.mpr ⟨_, List.mem_of_getElem? hglobal, rfl⟩)
    obtain ⟨r, hr, hof⟩ := hcovers.routine hfunction
    obtain ⟨part, hpart, _, _, hkind⟩ := part_of_getElem h hr
    obtain rfl : part = _ := Option.some.inj (hpart.symm.trans (parts_of_global hglobal))
    obtain ⟨st, hf, _⟩ := assembleAll_getElem_some direct m hr ⟨0, []⟩
    refine ⟨by simp [Conversion.globalSlot, hfunction], _, by simpa [Outline.assemble] using hf,
      hkind, ?_, ?_⟩
    · show r.captures.map _ = []
      rw [hof.captures, hcaptures]
      rfl
    · rw [arity_function, hof.scope_length, Plan.arity, hcaptures, List.length_nil, Nat.zero_add]
      rfl
  · intro f hf
    obtain ⟨i, hi⟩ := Array.mem_iff_getElem?.mp hf
    obtain ⟨r, st, hr, rfl⟩ := routine_of_getElem hi
    obtain ⟨id, hof⟩ := hcovers.node (List.mem_of_getElem? hr)
    obtain ⟨params, body, hkind, _⟩ := hof.body
    rw [arity_function, hof.scope_length]
    exact Nat.le_add_left_of_le (List.length_pos_iff.mpr (regular.shaped.params_ne_nil hkind))

end

end Lamina.Flat
