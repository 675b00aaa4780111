import Mathlib.Order.Monotone.Basic
import Lamina.Proofs.Core.Twins

/-!
# Operators of the prelude

A tree is lowered without and with operators in the prelude. Where the prelude does not bind an
operator, its uses are intrinsics and no references; the nodes of these operators are missing, and
all other nodes are there in the same order. So the two modules are twins (`twins_of_operators`),
and the nodes of the one stand in order for those of the other.
-/

namespace Lamina.Core

/-- Where a node of the graph without operators in the prelude stands in the graph with them. -/
def widen : Nat → Nat
  | 0 => 3
  | 1 => 4
  | 2 => 8
  | 3 => 9
  | 4 => 10
  | id + 5 => id + 11

theorem widen_strictMono : StrictMono widen := by
  refine strictMono_nat_of_lt_succ fun id => ?_
  match id with
  | 0 | 1 | 2 | 3 | 4 => decide
  | id + 5 => exact Nat.lt_succ_self _

/-- The nodes before `bound`, and where they stand if the prelude has operators. -/
def Widened (bound : Nat) (id id' : NodeId) : Prop := id < bound ∧ id' = widen id

/-- Contents without and with operators in the prelude. -/
abbrev Widens (m m' : Module) (bound : Nat) : NodeKind → NodeKind → Prop :=
  Matching m m' (fun _ => True) (Widened bound)

/-- From `first` up to `last`, nodes have the same contents as those six places further on. -/
def Shifted (m m' : Module) (bound first last : Nat) : Prop :=
  ∀ id, first ≤ id → id < last → Widens m m' bound (m.kind id) (m'.kind (id + 6))

/-- A binding to the node that is six places further on. -/
def shift (binding : String × NodeId) : String × NodeId := (binding.1, binding.2 + 6)

section

variable {m m' : Module} {bound first middle last last' id : Nat} {frame frame' : Bindings}

theorem widened_add (hid : 5 ≤ id := by omega) (hlt : id < bound := by omega) :
    Widened bound id (id + 6) := by
  obtain ⟨k, rfl⟩ := Nat.exists_eq_add_of_le' hid
  exact ⟨hlt, rfl⟩

namespace Shifted

theorem nil : Shifted m m' bound first first :=
  fun _ hle hlt => absurd hlt (Nat.not_lt.mpr hle)

theorem append (h : Shifted m m' bound first middle) (h' : Shifted m m' bound middle last) :
    Shifted m m' bound first last := by
  intro id hle hlt
  rcases Nat.lt_or_ge id middle with hid | hid
  · exact h id hle hid
  · exact h' id hid hlt

/-- The node of a part stands right after the nodes that were made for it. -/
theorem node (h : Shifted m m' bound first id)
    (hkind : Widens m m' bound (m.kind id) (m'.kind (id + 6))) :
    Shifted m m' bound first (id + 1) := by
  refine h.append fun other hle hlt => ?_
  obtain rfl : other = id := by omega
  exact hkind

theorem of_frame (hnodes : frame.map (·.2) = List.Ico first last)
    (h : ∀ binding ∈ frame, Widens m m' bound (m.kind binding.2) (m'.kind (binding.2 + 6))) :
    Shifted m m' bound first last := by
  intro id hle hlt
  have hmem : id ∈ frame.map (·.2) := hnodes ▸ List.Ico.mem.mpr ⟨hle, hlt⟩
  obtain ⟨binding, hbinding, rfl⟩ := List.mem_map.mp hmem
  exact h binding hbinding

end Shifted

/-- Frames with the same names, whose nodes are made one after the other. -/
theorem frame_shifted (hkeys : frame.map (·.1) = frame'.map (·.1))
    (hnodes : frame.map (·.2) = List.Ico first last)
    (hnodes' : frame'.map (·.2) = List.Ico (first + 6) last') (hle : first ≤ last)
    (hle' : first + 6 ≤ last') : last' = last + 6 ∧ frame' = frame.map shift := by
  have hlength := length_eq_of_keys hkeys
  rw [hnodes, hnodes', List.Ico.length, List.Ico.length] at hlength
  have hlast : last' = last + 6 := by omega
  refine ⟨hlast, ?_⟩
  rw [← List.zip_unzip frame', ← List.zip_unzip (frame.map shift)]
  simp only [List.unzip_eq_map, List.map_map, Function.comp_def, shift]
  rw [hnodes', ← hkeys, hlast, ← List.Ico.map_add, ← hnodes, List.map_map]
  simp [Function.comp_def, Nat.add_comm]

theorem aligned_shift (hnodes : frame.map (·.2) = List.Ico first last) (hfirst : 5 ≤ first)
    (hlast : last ≤ bound) : Aligned (Widened bound) frame (frame.map shift) := by
  rw [Aligned, List.forall₂_map_right_iff, List.forall₂_same]
  intro binding hbinding
  have hmem : binding.2 ∈ frame.map (·.2) := List.mem_map_of_mem hbinding
  rw [hnodes, List.Ico.mem] at hmem
  exact ⟨rfl, widened_add⟩

end

/-! ## Expressions -/

mutual

/-- The nodes of an expression, and those six places further on. -/
theorem Built.shifted
    {m m' bound first last low high last' low' high' inside inside' names names' e kind kind'}
    (hfirst : 5 ≤ first) (hbound : last ≤ bound)
    (hnames : Names.Alike m' (Widened bound) names names') :
    Built m first last low high inside names e kind →
      Built m' (first + 6) last' low' high' inside' names' e kind' →
      last' = last + 6 ∧ Shifted m m' bound first last ∧ Widens m m' bound kind kind'
  | .var h, .var h' => ⟨rfl, .nil, Resolves.matching hnames rfl h h'⟩
  | .con, .con => ⟨rfl, .nil, .constructor trivial⟩
  | .lit, .lit => ⟨rfl, .nil, .literal⟩
  | .neg hfunc harg, .neg hfunc' harg' => by
    have hle := harg.le
    obtain ⟨rfl, hshifted, hkind⟩ := harg.shifted (by omega) (by omega) hnames harg'
    have hnegate : Shifted m m' bound first (first + 1) := Shifted.nil.node (by
      rw [hfunc, hfunc']
      exact .intrinsic)
    exact ⟨rfl, hnegate.append (hshifted.node hkind), .application widened_add widened_add⟩
  | .binOp hop hlhs happlied hrhs, .binOp hop' hlhs' happlied' hrhs' => by
    have hle := hlhs.le
    have hle₂ := hrhs.le
    obtain ⟨rfl, hleft, hkind⟩ := hlhs.shifted (by omega) (by omega) hnames hlhs'
    obtain ⟨rfl, hright, hkind'⟩ := hrhs.shifted (by omega) (by omega) hnames hrhs'
    have hfunc : Shifted m m' bound first (first + 1) :=
      Shifted.nil.node (Resolves.matching hnames rfl hop hop')
    -- the operator and its left side are a node of their own
    have hpair := (hfunc.append (hleft.node hkind)).node (by
      rw [happlied]
      exact happlied' ▸ .application widened_add widened_add)
    exact ⟨rfl, hpair.append (hright.node hkind'), .application widened_add widened_add⟩
  | .app hfunc harg, .app hfunc' harg' => by
    have hle := hfunc.le
    have hle₂ := harg.le
    obtain ⟨rfl, hleft, hkind⟩ := hfunc.shifted (by omega) (by omega) hnames hfunc'
    obtain ⟨rfl, hright, hkind'⟩ := harg.shifted (by omega) (by omega) hnames harg'
    exact ⟨rfl, (hleft.node hkind).append (hright.node hkind'),
      .application widened_add widened_add⟩
  | .cond htest htrue hfalse, .cond htest' htrue' hfalse' => by
    have hle := htest.le
    have hle₂ := htrue.le
    have hle₃ := hfalse.le
    obtain ⟨rfl, hone, hkind⟩ := htest.shifted (by omega) (by omega) hnames htest'
    obtain ⟨rfl, htwo, hkind'⟩ := htrue.shifted (by omega) (by omega) hnames htrue'
    obtain ⟨rfl, hthree, hkind''⟩ := hfalse.shifted (by omega) (by omega) hnames hfalse'
    exact ⟨rfl, ((hone.node hkind).append (htwo.node hkind')).append (hthree.node hkind''),
      .conditional widened_add widened_add widened_add⟩
  | .letIn _ hslots hle hblock hbody, .letIn _ hslots' hle' hblock' hbody' => by
    have hle₂ := hblock.le
    have hle₃ := hbody.le
    obtain ⟨rfl, rfl⟩ :=
      frame_shifted (hblock.keys.trans hblock'.keys.symm) hslots hslots' hle hle'
    -- the names of the block have moved on as well, so its bodies see names that are alike
    have hinner := hnames.cons (aligned_shift hslots hfirst (by omega)).lookup
    obtain ⟨rfl, hbodies, hkinds⟩ := hblock.shifted (by omega) (by omega) hinner hblock'
    obtain ⟨rfl, hrest, hkind⟩ := hbody.shifted (by omega) hbound hinner hbody'
    exact ⟨rfl, ((Shifted.of_frame hslots hkinds).append hbodies).append hrest, hkind⟩
  | .lambda h, .lambda h' => h.shifted hfirst hbound hnames h'

/-- The parameters of a function, and its body. -/
theorem BuiltLambda.shifted
    {m m' bound first last low high last' low' high' inside inside' names names' params e kind
    kind'} (hfirst : 5 ≤ first) (hbound : last ≤ bound)
    (hnames : Names.Alike m' (Widened bound) names names') :
    BuiltLambda m first last low high inside names params e kind →
      BuiltLambda m' (first + 6) last' low' high' inside' names' params e kind' →
      last' = last + 6 ∧ Shifted m m' bound first last ∧ Widens m m' bound kind kind'
  | .mk _ _ hframe hnodes hle hbody, .mk _ _ hframe' hnodes' hle' hbody' => by
    have hle₂ := hbody.le
    obtain ⟨rfl, hshift⟩ :=
      frame_shifted (hframe.keys.trans hframe'.keys.symm) hnodes hnodes' hle hle'
    have haligned : Aligned (Widened bound) _ _ := aligned_shift hnodes hfirst (by omega)
    rw [← hshift] at haligned
    obtain ⟨rfl, hshifted, hkind⟩ :=
      hbody.shifted (by omega) (by omega) (hnames.cons haligned.lookup) hbody'
    have hparams : ∀ binding ∈ m.scopes.bindings low,
        Widens m m' bound (m.kind binding.2) (m'.kind (binding.2 + 6)) := by
      intro binding hbinding
      show Widens m m' bound _ (m'.kind (shift binding).2)
      rw [hframe.placeholder _ hbinding,
        hframe'.placeholder _ (hshift ▸ List.mem_map_of_mem hbinding)]
      exact .placeholder
    refine ⟨rfl, (Shifted.of_frame hnodes hparams).append (hshifted.node hkind),
      .lambda ?_ widened_add⟩
    rw [List.forall₂_map_left_iff, List.forall₂_map_right_iff]
    exact haligned.imp fun _ _ hbinding => hbinding.2

/-- The bodies of a block, and the nodes of its names. -/
theorem BuiltBlock.shifted
    {m m' bound first last low high last' low' high' inside inside' names names' decls frame}
    (hfirst : 5 ≤ first) (hbound : last ≤ bound)
    (hnames : Names.Alike m' (Widened bound) names names') :
    BuiltBlock m first last low high inside names decls frame →
      BuiltBlock m' (first + 6) last' low' high' inside' names' decls (frame.map shift) →
      last' = last + 6 ∧ Shifted m m' bound first last ∧
        ∀ binding ∈ frame, Widens m m' bound (m.kind binding.2) (m'.kind (binding.2 + 6))
  | .nil, .nil => ⟨rfl, .nil, List.forall_mem_nil _⟩
  | .function hnode hrest, .function hnode' hrest' => by
    have hle := hnode.le
    have hle₂ := hrest.le
    obtain ⟨rfl, hbody, hkind⟩ := hnode.shifted hfirst (by omega) hnames hnode'
    obtain ⟨rfl, hbodies, hkinds⟩ := hrest.shifted (by omega) hbound hnames hrest'
    exact ⟨rfl, hbody.append hbodies, List.forall_mem_cons.mpr ⟨hkind, hkinds⟩⟩
  | .value hnode hrest, .value hnode' hrest' => by
    have hle := hnode.le
    have hle₂ := hrest.le
    obtain ⟨rfl, hbody, hkind⟩ := hnode.shifted hfirst (by omega) hnames hnode'
    obtain ⟨rfl, hbodies, hkinds⟩ := hrest.shifted (by omega) hbound hnames hrest'
    exact ⟨rfl, hbody.append hbodies, List.forall_mem_cons.mpr ⟨hkind, hkinds⟩⟩
  | .signature hrest, .signature hrest' => hrest.shifted hfirst hbound hnames hrest'

end

/-! ## Modules -/

section

variable {m m' : Module} {operators : Bool} {tree : Surface.Module} {bound : Nat}

/-- The names of the prelude have the first nodes. -/
theorem BuiltModule.prelude_eq (h : BuiltModule m operators tree) :
    m.scopes.bindings m.root = ((Lowering.preludeNames operators).map (·.2)).zip
      (List.range (Lowering.preludeNames operators).length) := by
  rw [← h.prelude.keys, ← h.preludeNodes]
  simpa [List.unzip_eq_map] using (List.zip_unzip (m.scopes.bindings m.root)).symm

theorem BuiltModule.prelude_kind (h : BuiltModule m operators tree) {id op}
    (hop : ((Lowering.preludeNames operators).map (·.1))[id]? = some op) :
    m.kind id = .intrinsic op := by
  rw [List.getElem?_map] at hop
  obtain ⟨entry, hentry, rfl⟩ := Option.map_eq_some_iff.mp hop
  obtain ⟨hlt, rfl⟩ := List.getElem?_eq_some_iff.mp hentry
  have hlt' : id < (m.scopes.bindings m.root).length := h.prelude.length_eq ▸ hlt
  have hnode : ((m.scopes.bindings m.root).get ⟨id, hlt'⟩).2 = id := by
    have hnodes := congrArg (·[id]?) h.preludeNodes
    simpa [List.getElem?_eq_getElem hlt', hlt] using hnodes
  have hkind := (h.prelude.get hlt hlt').2
  rwa [hnode] at hkind

/-- A name of the prelude stands for the same without operators and with them, unless it is one. -/
theorem alike_prelude (h : BuiltModule m false tree) (h' : BuiltModule m' true tree)
    (hbound : 5 ≤ bound) :
    Names.Alike m' (Widened bound) [m.scopes.bindings m.root] [m'.scopes.bindings m'.root] := by
  intro name
  have hnames : (Lowering.preludeNames true).map (·.2) =
      ["+", "-", "*", "div", "mod", "==", "<=", ">=", "negate", "show", "putStrLn"] := by decide
  simp only [Names.find?, List.findSome?_singleton, h.prelude_eq, h'.prelude_eq]
  by_cases hname : name ∈ (Lowering.preludeNames true).map (·.2)
  · simp only [hnames, List.mem_cons, List.not_mem_nil, or_false] at hname
    rcases hname with rfl | rfl | rfl | rfl | rfl | rfl | rfl | rfl | rfl | rfl | rfl
    all_goals first
      | exact .operator rfl (h'.prelude_kind (by decide))
      | exact .nodes ⟨Nat.lt_of_lt_of_le (by decide) hbound, rfl⟩
  · have hnone : ∀ {names : List String}, name ∉ names →
        (names.zip (List.range names.length)).lookup name = none := by
      intro names hnot
      rwa [lookup_eq_none_iff_not_mem, List.map_fst_zip (by simp)]
    have hslim : name ∉ (Lowering.preludeNames false).map (·.2) := fun hmem =>
      hname ((by decide : (Lowering.preludeNames false).map (·.2) ⊆
        (Lowering.preludeNames true).map (·.2)) hmem)
    have hwide' := hnone hname
    have hslim' := hnone hslim
    rw [List.length_map] at hwide' hslim'
    rw [hwide', hslim']
    exact .nothing

/-- A tree is lowered to twins without operators in the prelude and with them: the nodes of the one
stand in order for those of the other. -/
theorem twins_of_operators (h : BuiltModule m false tree) (h' : BuiltModule m' true tree)
    (hnodup : (declNames tree.decls).Nodup) (hentry : m.entry = m'.entry) :
    ∃ bound, Twins (fun _ => True) (Widened bound) m m' ∧
      Aligned (Widened bound) m.definitions m'.definitions := by
  obtain ⟨slots, hslots, hle, hblock⟩ := h.definitions
  obtain ⟨slots', hslots', hle', hblock'⟩ := h'.definitions
  obtain ⟨rfl, hshift⟩ :=
    frame_shifted (hblock.keys.trans hblock'.keys.symm) hslots hslots' hle hle'
  have hle₂ := hblock.le
  have haligned : Aligned (Widened m.graph.size) m.definitions m'.definitions :=
    hshift ▸ aligned_shift hslots (Nat.le_refl _) hle₂
  have hnames := (alike_prelude h h' (Nat.le_trans hle hle₂)).cons haligned.lookup
  nth_rewrite 2 [hshift] at hblock'
  obtain ⟨-, hbodies, hkinds⟩ := hblock.shifted hle (Nat.le_refl _) hnames hblock'
  have hshifted := (Shifted.of_frame hslots hkinds).append hbodies
  refine ⟨_, ⟨⟨?_, ?_⟩, ?_, haligned.lookup, h.keys ▸ hnodup, h'.keys ▸ hnodup, hentry⟩, haligned⟩
  · rintro a b _ ⟨_, rfl⟩ ⟨_, heq⟩
    exact widen_strictMono.injective heq
  · rintro a _ _ ⟨_, rfl⟩ ⟨_, rfl⟩
    rfl
  · rintro id _ ⟨hlt, rfl⟩
    match id with
    | 0 | 1 | 2 | 3 | 4 =>
      rw [h.prelude_kind rfl, h'.prelude_kind rfl]
      exact .intrinsic
    | id + 5 => exact hshifted (id + 5) (Nat.le_add_left _ _) hlt

end

end Lamina.Core
