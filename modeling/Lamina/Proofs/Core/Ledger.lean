import Mathlib.Data.List.Count
import Mathlib.Data.List.Nodup
import Mathlib.Data.List.Pairwise
import Lamina.Proofs.Core.Built
import Lamina.Proofs.Core.Shape
import Lamina.Proofs.Lookup

/-!
# What was made is used once

A node belongs to one other node at most, a scope of parameters has one lambda, and a placeholder is
a parameter in one scope. For the nodes and scopes that were made for an expression (`Built.ledger`)
all this can be said at once: taken together, what they use and what is left over has nothing in it
twice. What is left over is what the contents of the expression itself will use.
-/

namespace Lamina.Core

open Lamina.Surface (Ident Expr Decl)

/-- Something that is used once. -/
inductive Loose
  /-- A node, by the node that owns it. -/
  | node (id : Nat)
  /-- A scope of parameters, by its lambda. -/
  | params (scope : Nat)
  /-- A placeholder, by the scope that binds it. -/
  | holder (id : Nat)
deriving DecidableEq

/-- What the contents of a node use. -/
def NodeKind.parts : NodeKind → List Loose
  | application func arg => [.node func, .node arg]
  | lambda params body => [.params params, .node body]
  | conditional cond onTrue onFalse => [.node cond, .node onTrue, .node onFalse]
  | _ => []

theorem NodeKind.node_mem_parts {kind : NodeKind} {id : NodeId} :
    .node id ∈ kind.parts ↔ id ∈ kind.children := by
  cases kind <;> simp [parts, children]

theorem NodeKind.params_mem_parts {kind : NodeKind} {scope : ScopeId} :
    .params scope ∈ kind.parts ↔ ∃ body, kind = .lambda scope body := by
  cases kind <;> simp [parts, eq_comm]

theorem NodeKind.holder_not_mem_parts {kind : NodeKind} {id : NodeId} :
    .holder id ∉ kind.parts := by
  cases kind <;> simp [parts]

/-- Contents that an expression can have. -/
structure NodeKind.Proper (kind : NodeKind) : Prop where
  formed : kind ≠ .noForm
  solid : kind ≠ .placeholder

namespace Module

variable (m : Module) (first last low high : Nat)

/-- What a scope uses. -/
def held (scope : ScopeId) : List Loose :=
  if m.scopes.kind scope = .paramScope then
    (m.scopes.bindings scope).map fun binding => .holder binding.2
  else []

/-- What the nodes and the scopes of an interval use. -/
def uses : List Loose :=
  (List.Ico first last).flatMap (fun id => (m.kind id).parts) ++ (List.Ico low high).flatMap m.held

end Module

/-- Something was made along with the nodes and the scopes of an interval. -/
def Loose.Made (m : Module) (first last low high : Nat) : Loose → Prop
  | .node id => first ≤ id ∧ id < last
  | .params scope => low ≤ scope ∧ scope < high ∧ m.scopes.kind scope = .paramScope
  | .holder id => first ≤ id ∧ id < last ∧ m.kind id = .placeholder

theorem Loose.Made.widen {m first first' last last' low low' high high'} {x : Loose}
    (h : x.Made m first last low high) (hfirst : first' ≤ first) (hlast : last ≤ last')
    (hlow : low' ≤ low) (hhigh : high ≤ high') : x.Made m first' last' low' high' := by
  cases x with
  | node id => exact ⟨Nat.le_trans hfirst h.1, Nat.lt_of_lt_of_le h.2 hlast⟩
  | params scope => exact ⟨Nat.le_trans hlow h.1, Nat.lt_of_lt_of_le h.2.1 hhigh, h.2.2⟩
  | holder id => exact ⟨Nat.le_trans hfirst h.1, Nat.lt_of_lt_of_le h.2.1 hlast, h.2.2⟩

/-- What the nodes and scopes of an interval use and what is left over was made there, with nothing
in it twice. All scopes of parameters and all placeholders are in it. A node that is used has its
own children before it. -/
structure Ledger (m : Module) (first last low high : Nat) (free : List Loose) : Prop where
  nodes_le : first ≤ last
  scopes_le : low ≤ high
  nodup : (m.uses first last low high ++ free).Nodup
  made : ∀ x ∈ m.uses first last low high ++ free, x.Made m first last low high
  used : ∀ x : Loose, x.Made m first last low high → (∀ id, x ≠ .node id) →
    x ∈ m.uses first last low high ++ free
  formed : ∀ id, first ≤ id → id < last → m.kind id ≠ .noForm
  below : ∀ {id child : Nat}, .node id ∈ m.uses first last low high ++ free →
    child ∈ (m.kind id).children → child < id

namespace Ledger

variable {m : Module} {first middle last low mid high id : Nat} {free more : List Loose}
  {frame : Bindings}

/-- What is used and left over may be told in another order. -/
theorem of_perm {l : List Loose} (hle : first ≤ last) (hle' : low ≤ high)
    (hperm : (m.uses first last low high ++ free).Perm l) (hnodup : l.Nodup)
    (hmade : ∀ x ∈ l, x.Made m first last low high)
    (hused : ∀ x : Loose, x.Made m first last low high → (∀ id, x ≠ .node id) → x ∈ l)
    (hformed : ∀ id, first ≤ id → id < last → m.kind id ≠ .noForm)
    (hbelow : ∀ {id child : Nat}, .node id ∈ l → child ∈ (m.kind id).children → child < id) :
    Ledger m first last low high free where
  nodes_le := hle
  scopes_le := hle'
  nodup := hperm.nodup_iff.mpr hnodup
  made x hx := hmade x (hperm.mem_iff.mp hx)
  used x hx hnode := hperm.mem_iff.mpr (hused x hx hnode)
  formed := hformed
  below hid := hbelow (hperm.mem_iff.mp hid)

/-- Leaves that are no placeholders, and scopes that have no parameters. -/
theorem of_leaves (hle : first ≤ last) (hle' : low ≤ high)
    (hnodes : ∀ id, first ≤ id → id < last → (m.kind id).Proper ∧ (m.kind id).parts = [])
    (hscopes : ∀ id, low ≤ id → id < high → m.scopes.kind id ≠ .paramScope) :
    Ledger m first last low high [] := by
  have hnone : m.uses first last low high ++ [] = [] := by
    rw [List.append_nil, Module.uses, List.append_eq_nil_iff, List.flatMap_eq_nil_iff,
      List.flatMap_eq_nil_iff]
    constructor
    · intro id hid
      rw [List.Ico.mem] at hid
      exact (hnodes id hid.1 hid.2).2
    · intro id hid
      rw [List.Ico.mem] at hid
      exact if_neg (hscopes id hid.1 hid.2)
  refine of_perm hle hle' (.of_eq hnone) List.nodup_nil (List.forall_mem_nil _) ?_
    (fun id hle hlt => (hnodes id hle hlt).1.formed) nofun
  intro x hx hnode
  cases x with
  | node id => exact absurd rfl (hnode id)
  | params scope => exact absurd hx.2.2 (hscopes scope hx.1 hx.2.1)
  | holder id => exact absurd hx.2.2 (hnodes id hx.1 hx.2.1).1.solid

theorem nil : Ledger m first first low low [] :=
  of_leaves (Nat.le_refl _) (Nat.le_refl _) (fun _ hle hlt => absurd hlt (Nat.not_lt.mpr hle))
    fun _ hle hlt => absurd hlt (Nat.not_lt.mpr hle)

theorem uses_append (hle : first ≤ middle) (hle' : middle ≤ last) (hlow : low ≤ mid)
    (hhigh : mid ≤ high) : (m.uses first last low high).Perm
      (m.uses first middle low mid ++ m.uses middle last mid high) := by
  unfold Module.uses
  rw [← List.Ico.append_consecutive hle hle', ← List.Ico.append_consecutive hlow hhigh,
    List.flatMap_append, List.flatMap_append, List.perm_iff_count]
  intro x
  simp only [List.count_append]
  omega

/-- Two intervals, one after the other. -/
theorem append (h : Ledger m first middle low mid free)
    (h' : Ledger m middle last mid high more) : Ledger m first last low high (free ++ more) := by
  refine of_perm (l := (m.uses first middle low mid ++ free) ++
    (m.uses middle last mid high ++ more)) (Nat.le_trans h.nodes_le h'.nodes_le)
    (Nat.le_trans h.scopes_le h'.scopes_le) ?_ ?_ ?_ ?_ ?_ ?_
  · refine ((uses_append h.nodes_le h'.nodes_le h.scopes_le h'.scopes_le).append_right _).trans ?_
    rw [List.perm_iff_count]
    intro x
    simp only [List.count_append]
    omega
  · rw [List.nodup_append]
    refine ⟨h.nodup, h'.nodup, ?_⟩
    rintro x hx _ hx' rfl
    have hmade := h.made x hx
    have hmade' := h'.made x hx'
    cases x <;> simp only [Loose.Made] at hmade hmade' <;> omega
  · exact List.forall_mem_append.mpr
      ⟨fun x hx => (h.made x hx).widen (Nat.le_refl _) h'.nodes_le (Nat.le_refl _) h'.scopes_le,
        fun x hx => (h'.made x hx).widen h.nodes_le (Nat.le_refl _) h.scopes_le (Nat.le_refl _)⟩
  · intro x hx hnode
    rw [List.mem_append]
    cases x with
    | node id => exact absurd rfl (hnode id)
    | params scope =>
      rcases Nat.lt_or_ge scope mid with hlt | hge
      · exact .inl (h.used _ ⟨hx.1, hlt, hx.2.2⟩ hnode)
      · exact .inr (h'.used _ ⟨hge, hx.2⟩ hnode)
    | holder id =>
      rcases Nat.lt_or_ge id middle with hlt | hge
      · exact .inl (h.used _ ⟨hx.1, hlt, hx.2.2⟩ hnode)
      · exact .inr (h'.used _ ⟨hge, hx.2⟩ hnode)
  · intro id hle hlt
    rcases Nat.lt_or_ge id middle with hid | hid
    · exact h.formed id hle hid
    · exact h'.formed id hid hlt
  · intro id child hid
    rcases List.mem_append.mp hid with hid | hid
    · exact h.below hid
    · exact h'.below hid

/-- The node of a part uses what was left over, and is left over itself. -/
theorem node {kind : NodeKind} (h : Ledger m first id low high kind.parts)
    (hkind : m.kind id = kind) (hproper : kind.Proper) :
    Ledger m first (id + 1) low high [.node id] := by
  subst hkind
  refine of_perm (l := .node id :: (m.uses first id low high ++ (m.kind id).parts))
    (Nat.le_succ_of_le h.nodes_le) h.scopes_le ?_ ?_ ?_ ?_ ?_ ?_
  · unfold Module.uses
    rw [List.Ico.succ_top h.nodes_le, List.flatMap_append, List.perm_iff_count]
    intro x
    simp only [List.count_append, List.flatMap_singleton, List.count_cons, List.count_nil]
    omega
  · exact List.nodup_cons.mpr ⟨fun hmem => Nat.lt_irrefl _ (h.made _ hmem).2, h.nodup⟩
  · exact List.forall_mem_cons.mpr ⟨⟨h.nodes_le, Nat.lt_succ_self _⟩, fun x hx =>
      (h.made x hx).widen (Nat.le_refl _) (Nat.le_succ _) (Nat.le_refl _) (Nat.le_refl _)⟩
  · intro x hx hnode
    refine List.mem_cons_of_mem _ (h.used x ?_ hnode)
    cases x with
    | node other => exact absurd rfl (hnode other)
    | params scope => exact hx
    | holder other =>
      refine ⟨hx.1, Nat.lt_of_le_of_ne (Nat.le_of_lt_succ hx.2.1) ?_, hx.2.2⟩
      rintro rfl
      exact hproper.solid hx.2.2
  · intro other hle hlt
    rcases Nat.lt_succ_iff_lt_or_eq.mp hlt with hlt | rfl
    · exact h.formed other hle hlt
    · exact hproper.formed
  · intro other child hother hchild
    rcases List.mem_cons.mp hother with heq | hmem
    · cases heq
      exact (h.made _ (List.mem_append_right _ (NodeKind.node_mem_parts.mpr hchild))).2
    · exact h.below hmem hchild

/-- The nodes of the names of a block come before all that was made for its bodies, and use what is
left over of it. -/
theorem block (hslots : frame.map (·.2) = List.Ico first middle) (hle : first ≤ middle)
    (hproper : ∀ binding ∈ frame, (m.kind binding.2).Proper)
    (hkind : m.scopes.kind low ≠ .paramScope)
    (h : Ledger m middle last (low + 1) high
      (frame.flatMap fun binding => (m.kind binding.2).parts)) :
    Ledger m first last low high [] := by
  have hlow := Nat.le_of_succ_le h.scopes_le
  have hframe : ∀ id, first ≤ id → id < middle → (m.kind id).Proper := by
    intro id hid hlt
    have hmem : id ∈ frame.map (·.2) := hslots ▸ List.Ico.mem.mpr ⟨hid, hlt⟩
    obtain ⟨binding, hbinding, rfl⟩ := List.mem_map.mp hmem
    exact hproper binding hbinding
  have huses : m.uses first middle low (low + 1) =
      frame.flatMap fun binding => (m.kind binding.2).parts := by
    rw [Module.uses, ← hslots, List.flatMap_map, List.Ico.succ_singleton, List.flatMap_singleton,
      Module.held, if_neg hkind, List.append_nil]
  refine of_perm (l := m.uses middle last (low + 1) high ++
    frame.flatMap fun binding => (m.kind binding.2).parts) (Nat.le_trans hle h.nodes_le) hlow
    ?_ h.nodup ?_ ?_ ?_ h.below
  · rw [List.append_nil, ← huses]
    exact (uses_append hle h.nodes_le (Nat.le_succ low) h.scopes_le).trans List.perm_append_comm
  · exact fun x hx => (h.made x hx).widen hle (Nat.le_refl _) (Nat.le_succ low) (Nat.le_refl _)
  · intro x hx hnode
    refine h.used x ?_ hnode
    cases x with
    | node id => exact absurd rfl (hnode id)
    | params scope =>
      refine ⟨Nat.lt_of_le_of_ne hx.1 ?_, hx.2⟩
      rintro rfl
      exact hkind hx.2.2
    | holder id =>
      refine ⟨Nat.le_of_not_lt fun hlt => ?_, hx.2⟩
      exact (hframe id hx.1 hlt).solid hx.2.2
  · intro id hid hlt
    rcases Nat.lt_or_ge id middle with hlt' | hge
    · exact (hframe id hid hlt').formed
    · exact h.formed id hge hlt

/-- The placeholders of a function and the scope that binds them. -/
theorem params (hkind : m.scopes.kind low = .paramScope)
    (hnodes : (m.scopes.bindings low).map (·.2) = List.Ico first middle) (hle : first ≤ middle)
    (hholders : ∀ binding ∈ m.scopes.bindings low, m.kind binding.2 = .placeholder) :
    Ledger m first middle low (low + 1) [.params low] := by
  have hholder : ∀ id, first ≤ id → id < middle → m.kind id = .placeholder := by
    intro id hid hlt
    have hmem : id ∈ (m.scopes.bindings low).map (·.2) := hnodes ▸ List.Ico.mem.mpr ⟨hid, hlt⟩
    obtain ⟨binding, hbinding, rfl⟩ := List.mem_map.mp hmem
    exact hholders binding hbinding
  have huses : m.uses first middle low (low + 1) = (List.Ico first middle).map .holder := by
    have hnone : (List.Ico first middle).flatMap (fun id => (m.kind id).parts) = [] := by
      rw [List.flatMap_eq_nil_iff]
      intro id hid
      rw [List.Ico.mem] at hid
      rw [hholder id hid.1 hid.2]
      rfl
    rw [Module.uses, hnone, List.Ico.succ_singleton, List.flatMap_singleton, Module.held,
      if_pos hkind, ← hnodes, List.map_map]
    rfl
  refine of_perm (l := .params low :: (List.Ico first middle).map .holder) hle (Nat.le_succ low)
    ?_ ?_ ?_ ?_ ?_ ?_
  · rw [huses]
    exact List.perm_append_singleton _ _
  · exact List.nodup_cons.mpr
      ⟨by simp, List.Nodup.map (fun _ _ => Loose.holder.inj) (List.Ico.nodup _ _)⟩
  · refine List.forall_mem_cons.mpr ⟨⟨Nat.le_refl _, Nat.lt_succ_self _, hkind⟩, ?_⟩
    rw [List.forall_mem_map]
    intro id hid
    rw [List.Ico.mem] at hid
    exact ⟨hid.1, hid.2, hholder id hid.1 hid.2⟩
  · intro x hx hnode
    cases x with
    | node id => exact absurd rfl (hnode id)
    | params scope =>
      obtain rfl : scope = low := Nat.le_antisymm (Nat.le_of_lt_succ hx.2.1) hx.1
      exact List.mem_cons_self
    | holder id =>
      exact List.mem_cons_of_mem _ (List.mem_map_of_mem (List.Ico.mem.mpr ⟨hx.1, hx.2.1⟩))
  · intro id hid hlt
    rw [hholder id hid hlt]
    nofun
  · intro id child hid
    simp at hid

end Ledger

/-! ## Expressions -/

/-- All that was made for some contents is accounted for: what is left over is what they use. -/
structure Accounted (m : Module) (first last low high : Nat) (kind : NodeKind) : Prop where
  ledger : Ledger m first last low high kind.parts
  proper : kind.Proper

section

variable {m : Module} {operators : Bool} {tree : Surface.Module}

theorem Accounted.node {first low high id : Nat}
    (h : Accounted m first id low high (m.kind id)) : Ledger m first (id + 1) low high [.node id] :=
  h.ledger.node rfl h.proper

theorem Resolves.accounted {names name kind} (h : Resolves names name kind) {first low : Nat} :
    Accounted m first first low low kind := by
  cases h with
  | bound => exact ⟨.nil, nofun, nofun⟩
  | catalog => exact ⟨.nil, nofun, nofun⟩

mutual

theorem Built.accounted {first last low high inside names e kind} :
    Built m first last low high inside names e kind → Accounted m first last low high kind
  | .var h => h.accounted
  | .con => ⟨.nil, nofun, nofun⟩
  | .lit => ⟨.nil, nofun, nofun⟩
  | .neg hfunc harg =>
    ⟨(Ledger.nil.node hfunc ⟨nofun, nofun⟩).append harg.accounted.node, nofun, nofun⟩
  | .binOp hop hlhs happlied hrhs =>
    ⟨((hop.accounted.node.append hlhs.accounted.node).node happlied ⟨nofun, nofun⟩).append
      hrhs.accounted.node, nofun, nofun⟩
  | .app hfunc harg => ⟨hfunc.accounted.node.append harg.accounted.node, nofun, nofun⟩
  | .cond htest htrue hfalse =>
    ⟨htest.accounted.node.append (htrue.accounted.node.append hfalse.accounted.node), nofun, nofun⟩
  | .letIn hinner hslots hle hblock hbody => by
    obtain ⟨hledger, hproper⟩ := hblock.ledger
    have hkind : m.scopes.kind low ≠ .paramScope := by
      rw [hinner.kind]
      nofun
    exact ⟨(hledger.block hslots hle hproper hkind).append hbody.accounted.ledger,
      hbody.accounted.proper⟩
  | .lambda h => h.accounted

theorem BuiltLambda.accounted {first last low high inside names params e kind} :
    BuiltLambda m first last low high inside names params e kind →
      Accounted m first last low high kind
  | .mk _ hinner hparams hnodes hle hbody =>
    ⟨(Ledger.params hinner.kind hnodes hle hparams.placeholder).append hbody.accounted.node, nofun,
      nofun⟩

theorem BuiltBlock.ledger {first last low high inside names decls frame} :
    BuiltBlock m first last low high inside names decls frame →
      Ledger m first last low high (frame.flatMap fun binding => (m.kind binding.2).parts) ∧
        ∀ binding ∈ frame, (m.kind binding.2).Proper
  | .nil => ⟨.nil, List.forall_mem_nil _⟩
  | .function hnode hrest => by
    obtain ⟨hledger, hproper⟩ := hrest.ledger
    exact ⟨hnode.accounted.ledger.append hledger,
      List.forall_mem_cons.mpr ⟨hnode.accounted.proper, hproper⟩⟩
  | .value hnode hrest => by
    obtain ⟨hledger, hproper⟩ := hrest.ledger
    exact ⟨hnode.accounted.ledger.append hledger,
      List.forall_mem_cons.mpr ⟨hnode.accounted.proper, hproper⟩⟩
  | .signature hrest => hrest.ledger

end

theorem BuiltModule.kind_of_prelude (h : BuiltModule m operators tree) {id : Nat}
    (hlt : id < (Lowering.preludeNames operators).length) : ∃ op, m.kind id = .intrinsic op := by
  have hmem : id ∈ (m.scopes.bindings m.root).map (·.2) := h.preludeNodes ▸ List.mem_range.mpr hlt
  obtain ⟨binding, hbinding, rfl⟩ := List.mem_map.mp hmem
  obtain ⟨entry, _, hentry⟩ := exists_mem_of_forall₂ h.prelude.flip hbinding
  exact ⟨entry.1, hentry.2⟩

/-- In a whole module nothing is left over. -/
theorem BuiltModule.ledger (h : BuiltModule m operators tree) :
    Ledger m 0 m.graph.size 0 m.scopes.scopes.size [] := by
  obtain ⟨slots, hslots, hle, hblock⟩ := h.definitions
  obtain ⟨hledger, hproper⟩ := hblock.ledger
  have hprelude : Ledger m 0 (Lowering.preludeNames operators).length 0 1 [] := by
    refine .of_leaves (Nat.zero_le _) (Nat.zero_le _) ?_ ?_
    · intro id _ hlt
      obtain ⟨op, hop⟩ := h.kind_of_prelude hlt
      rw [hop]
      exact ⟨⟨nofun, nofun⟩, rfl⟩
    · intro id _ hlt
      rw [Nat.lt_one_iff.mp hlt, h.rootKind]
      nofun
  refine hprelude.append (hledger.block hslots hle hproper ?_)
  rw [h.inner.kind]
  nofun

end

/-! ## Whole modules -/

/-- If nothing is listed twice, what is listed tells the place that lists it. -/
theorem eq_of_nodup_flatMap {α} {l : List Nat} {f : Nat → List α} (h : (l.flatMap f).Nodup) {a b x}
    (ha : a ∈ l) (hb : b ∈ l) (hxa : x ∈ f a) (hxb : x ∈ f b) : a = b := by
  by_contra hne
  have : Std.Symm (Function.onFun List.Disjoint f) := ⟨fun _ _ hdisjoint => hdisjoint.symm⟩
  have hapart : List.Disjoint (f a) (f b) := (List.nodup_flatMap.mp h).2.forall ha hb hne
  exact hapart hxa hxb

namespace Module

variable {m : Module} {id scope : Nat} {x : Loose}

theorem holder_mem_held : .holder id ∈ m.held scope ↔
    m.scopes.kind scope = .paramScope ∧ id ∈ (m.scopes.bindings scope).map (·.2) := by
  unfold held
  split <;> simp [*]

theorem holder_of_mem_held (h : x ∈ m.held scope) : ∃ id, x = .holder id := by
  unfold held at h
  split at h
  · obtain ⟨binding, _, rfl⟩ := List.mem_map.mp h
    exact ⟨_, rfl⟩
  · cases h

/-- Ids outside the tables use nothing. -/
theorem node_mem_Ico (h : x ∈ (m.kind id).parts) : id ∈ List.Ico 0 m.graph.size := by
  refine List.Ico.mem.mpr ⟨Nat.zero_le _, Nat.lt_of_not_le fun hle => ?_⟩
  rw [kind_of_size_le hle] at h
  cases h

theorem scope_mem_Ico (h : x ∈ m.held scope) : scope ∈ List.Ico 0 m.scopes.scopes.size := by
  refine List.Ico.mem.mpr ⟨Nat.zero_le _, Nat.lt_of_not_le fun hle => ?_⟩
  rw [held, ScopeTree.kind, Array.getElem?_eq_none hle] at h
  cases h

end Module

namespace Ledger

variable {m : Module} {a b : Nat} {x : Loose}

theorem nodup_nodes (h : Ledger m 0 m.graph.size 0 m.scopes.scopes.size []) :
    ((List.Ico 0 m.graph.size).flatMap fun id => (m.kind id).parts).Nodup :=
  (List.nodup_append.mp (List.nodup_append.mp h.nodup).1).1

theorem nodup_scopes (h : Ledger m 0 m.graph.size 0 m.scopes.scopes.size []) :
    ((List.Ico 0 m.scopes.scopes.size).flatMap m.held).Nodup :=
  (List.nodup_append.mp (List.nodup_append.mp h.nodup).1).2.1

theorem parts_subset (hx : x ∈ (m.kind a).parts) :
    x ∈ m.uses 0 m.graph.size 0 m.scopes.scopes.size ++ [] := by
  rw [List.append_nil]
  exact List.mem_append_left _ (List.mem_flatMap.mpr ⟨a, Module.node_mem_Ico hx, hx⟩)

theorem made_of_parts (h : Ledger m 0 m.graph.size 0 m.scopes.scopes.size [])
    (hx : x ∈ (m.kind a).parts) : x.Made m 0 m.graph.size 0 m.scopes.scopes.size :=
  h.made x (parts_subset hx)

end Ledger

end Lamina.Core
