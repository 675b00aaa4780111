import Mathlib.Data.List.Perm.Basic
import Mathlib.Logic.Relator
import Lamina.Proofs.Core.Violations

/-!
# Modules that differ in the places of nodes

Two modules are twins if their nodes stand for one another, one for one, so that they have the same
contents up to the nodes that they mention, and so that definitions of one name stand for one
another (`Twins`). Trees that are the same up to the order of declarations are lowered to twins
(`twins_of_reordered`): the nodes that are made for a piece of the one text stand for those that are
made for that piece of the other.
-/

namespace Lamina.Core

open Lamina.Surface (Ident Expr Decl AlignedDecls SameNames)

variable {m m' : Module} {C : String → Prop} {R : NodeId → NodeId → Prop} {inside : ScopeId}
  {names : Names} {decls : List Decl}

/-! ## Nodes that stand for one another -/

/-- The same contents, up to the nodes that are mentioned, which `R` relates; or an operator on the
one side and a reference to it on the other. All constructors are in `C`. -/
inductive Matching (m m' : Module) (C : String → Prop) (R : NodeId → NodeId → Prop) :
    NodeKind → NodeKind → Prop
  | placeholder : Matching m m' C R .placeholder .placeholder
  | constructor {name} (h : C name) : Matching m m' C R (.constructor name) (.constructor name)
  | indirection {target target'} (h : R target target') :
      Matching m m' C R (.indirection target) (.indirection target')
  | intrinsic {op} : Matching m m' C R (.intrinsic op) (.intrinsic op)
  | application {func func' arg arg'} (hfunc : R func func') (harg : R arg arg') :
      Matching m m' C R (.application func arg) (.application func' arg')
  | lambda {scope scope' body body'}
      (hparams : List.Forall₂ R ((m.scopes.bindings scope).map (·.2))
        ((m'.scopes.bindings scope').map (·.2))) (hbody : R body body') :
      Matching m m' C R (.lambda scope body) (.lambda scope' body')
  | literal {value} : Matching m m' C R (.literal value) (.literal value)
  | conditional {test test' onTrue onTrue' onFalse onFalse'} (htest : R test test')
      (htrue : R onTrue onTrue') (hfalse : R onFalse onFalse') :
      Matching m m' C R (.conditional test onTrue onFalse) (.conditional test' onTrue' onFalse')
  | operator {op target} (h : m'.kind target = .intrinsic op) :
      Matching m m' C R (.intrinsic op) (.indirection target)
  | referred {op target} (h : m.kind target = .intrinsic op) :
      Matching m m' C R (.indirection target) (.intrinsic op)

/-- Two modules that differ in the places of nodes, and in the order of definitions. -/
structure Twins (C : String → Prop) (R : NodeId → NodeId → Prop) (m m' : Module) : Prop where
  unique : Relator.BiUnique R
  kind : ∀ {id id'}, R id id' → Matching m m' C R (m.kind id) (m'.kind id')
  definition : ∀ name, Option.Rel R (m.definition? name) (m'.definition? name)
  keys : (m.definitions.map (·.1)).Nodup
  keys' : (m'.definitions.map (·.1)).Nodup
  entry : m.entry = m'.entry

theorem Matching.symm {kind kind' : NodeKind} (h : Matching m m' C R kind kind') :
    Matching m' m C (flip R) kind' kind := by
  cases h with
  | placeholder => exact .placeholder
  | constructor h => exact .constructor h
  | indirection h => exact .indirection h
  | intrinsic => exact .intrinsic
  | application hfunc harg => exact .application hfunc harg
  | lambda hparams hbody => exact .lambda hparams.flip hbody
  | literal => exact .literal
  | conditional htest htrue hfalse => exact .conditional htest htrue hfalse
  | operator h => exact .referred h
  | referred h => exact .operator h

theorem Twins.symm (h : Twins C R m m') : Twins C (flip R) m' m where
  unique := ⟨fun _ _ _ hac hbc => h.unique.2 hac hbc, fun _ _ _ hab hac => h.unique.1 hab hac⟩
  kind hid := (h.kind hid).symm
  definition name := by
    have hname := h.definition name
    generalize m.definition? name = found at hname
    generalize m'.definition? name = found' at hname
    cases hname with
    | none => exact .none
    | some hnode => exact .some hnode
  keys := h.keys'
  keys' := h.keys
  entry := h.entry.symm

/-! ## Names -/

/-- A name stands for nodes that `R` relates, or for nothing, unless it is that of an operator. -/
inductive Meant (m' : Module) (R : NodeId → NodeId → Prop) (name : String) :
    Option NodeId → Option NodeId → Prop
  | nothing : Meant m' R name none none
  | nodes {node node'} (h : R node node') : Meant m' R name (some node) (some node')
  | operator {op target} (hop : Intrinsic.ofSourceName? name = some op)
      (h : m'.kind target = .intrinsic op) : Meant m' R name none (some target)

/-- The same names are in scope but for operators, and stand for nodes that `R` relates. -/
def Names.Alike (m' : Module) (R : NodeId → NodeId → Prop) (names names' : Names) : Prop :=
  ∀ name, Meant m' R name (names.find? name) (names'.find? name)

/-- The same keys in order, and values that `R` relates. -/
abbrev Aligned (R : NodeId → NodeId → Prop) (frame frame' : Bindings) : Prop :=
  List.Forall₂ (fun binding binding' => binding.1 = binding'.1 ∧ R binding.2 binding'.2) frame
    frame'

section

variable {m m' : Module} {C : String → Prop} {R : NodeId → NodeId → Prop}
  {names names' : Names} {frame frame' : Bindings}

theorem Aligned.lookup (h : Aligned R frame frame') (name : String) :
    Option.Rel R (frame.lookup name) (frame'.lookup name) :=
  lookup_rel ⟨fun _ _ _ ha hb => ha.trans hb.symm, fun _ _ _ ha hb => ha.symm.trans hb⟩ h rfl

/-- Names that are bound alike in front of names that are alike. -/
theorem Names.Alike.cons (h : Names.Alike m' R names names')
    (hframe : ∀ name, Option.Rel R (frame.lookup name) (frame'.lookup name)) :
    Names.Alike m' R (frame :: names) (frame' :: names') := by
  intro name
  have hname := hframe name
  unfold Names.find?
  rw [List.findSome?_cons, List.findSome?_cons]
  generalize frame.lookup name = found at hname
  generalize frame'.lookup name = found' at hname
  cases hname with
  | none => exact h name
  | some hnode => exact .nodes hnode

/-- A use of a name that stands for the same. -/
theorem Resolves.matching (h : Names.Alike m' R names names') {name name'} (hname : name = name')
    {kind kind'} (hkind : Resolves names name kind) (hkind' : Resolves names' name' kind') :
    Matching m m' C R kind kind' := by
  subst hname
  have halike := h name
  cases hkind with
  | bound hbound =>
    rw [hbound] at halike
    cases hkind' with
    | bound hbound' =>
      rw [hbound'] at halike
      cases halike with
      | nodes hnode => exact .indirection hnode
    | catalog hnone' =>
      rw [hnone'] at halike
      cases halike
  | catalog hnone hop =>
    rw [hnone] at halike
    cases hkind' with
    | bound hbound' =>
      rw [hbound'] at halike
      cases halike with
      | operator hop' hkind' =>
        cases hop.symm.trans hop'
        exact .operator hkind'
    | catalog _ hop' =>
      cases hop.symm.trans hop'
      exact .intrinsic

end

/-! ## Pairs of nodes -/

/-- Pairs of nodes, in which each node of two lists is once, and whose contents match wherever the
pairs are related and the names in scope are alike. -/
structure Paired (m m' : Module) (C : String → Prop) (names names' : Names)
    (nodes nodes' : List NodeId) (pairs : List (NodeId × NodeId)) : Prop where
  left : (pairs.map (·.1)).Perm nodes
  right : (pairs.map (·.2)).Perm nodes'
  kinds : ∀ {R}, Names.Alike m' R names names' →
    (∀ pair ∈ pairs, R pair.1 pair.2) →
    ∀ pair ∈ pairs, Matching m m' C R (m.kind pair.1) (m'.kind pair.2)

/-- The nodes that were made for some contents can be paired so that the contents match. -/
def Pairable (m m' : Module) (C : String → Prop) (names names' : Names)
    (nodes nodes' : List NodeId) (kind kind' : NodeKind) : Prop :=
  ∃ pairs, Paired m m' C names names' nodes nodes' pairs ∧
    ∀ {R}, Names.Alike m' R names names' →
      (∀ pair ∈ pairs, R pair.1 pair.2) → Matching m m' C R kind kind'

section

variable {m m' : Module} {C : String → Prop} {names names' : Names}
  {nodes' more more' : List NodeId} {pairs others : List (NodeId × NodeId)}
  {first first' last last' : Nat} {frame frame' : Bindings} {kind kind' : NodeKind}
  {R : NodeId → NodeId → Prop} {params params' : List Ident}

theorem Paired.nil : Paired m m' C names names' [] [] [] :=
  ⟨.nil, .nil, fun _ _ => List.forall_mem_nil _⟩

theorem Paired.append {nodes : List NodeId} (h : Paired m m' C names names' nodes nodes' pairs)
    (h' : Paired m m' C names names' more more' others) :
    Paired m m' C names names' (nodes ++ more) (nodes' ++ more') (pairs ++ others) where
  left := by
    rw [List.map_append]
    exact h.left.append h'.left
  right := by
    rw [List.map_append]
    exact h.right.append h'.right
  kinds hnames hall := by
    obtain ⟨hpairs, hothers⟩ := List.forall_mem_append.mp hall
    exact List.forall_mem_append.mpr ⟨h.kinds hnames hpairs, h'.kinds hnames hothers⟩

/-- Contents for which no nodes were made. -/
theorem Pairable.of_matching
    (h : ∀ {R}, Names.Alike m' R names names' → Matching m m' C R kind kind') :
    Pairable m m' C names names' [] [] kind kind' :=
  ⟨[], .nil, fun hnames _ => h hnames⟩

/-- The node of a part is paired with the node of the other part. -/
theorem Pairable.node {id id' : Nat} (hle : first ≤ id) (hle' : first' ≤ id')
    (h : Pairable m m' C names names' (List.Ico first id) (List.Ico first' id') (m.kind id)
      (m'.kind id')) :
    ∃ pairs, Paired m m' C names names' (List.Ico first (id + 1)) (List.Ico first' (id' + 1))
      pairs ∧ (id, id') ∈ pairs := by
  obtain ⟨pairs, hpairs, hkind⟩ := h
  refine ⟨pairs ++ [(id, id')], ⟨?_, ?_, ?_⟩, by simp⟩
  · rw [List.map_append, List.Ico.succ_top hle]
    exact hpairs.left.append_right _
  · rw [List.map_append, List.Ico.succ_top hle']
    exact hpairs.right.append_right _
  · intro R hnames hall
    obtain ⟨hpairs', hnode⟩ := List.forall_mem_append.mp hall
    refine List.forall_mem_append.mpr ⟨hpairs.kinds hnames hpairs', ?_⟩
    rw [List.forall_mem_singleton]
    exact hkind hnames hpairs'

/-- Two parts, made one after the other. -/
theorem Paired.consecutive {middle middle' : Nat}
    (h : Paired m m' C names names' (List.Ico first middle) (List.Ico first' middle') pairs)
    (h' : Paired m m' C names names' (List.Ico middle last) (List.Ico middle' last') others)
    (hle : first ≤ middle ∧ middle ≤ last) (hle' : first' ≤ middle' ∧ middle' ≤ last') :
    Paired m m' C names names' (List.Ico first last) (List.Ico first' last') (pairs ++ others) := by
  rw [← List.Ico.append_consecutive hle.1 hle.2, ← List.Ico.append_consecutive hle'.1 hle'.2]
  exact h.append h'

/-- An application: its function, and then its argument. -/
theorem Pairable.application {func arg func' arg' : Nat}
    (hfunc : Pairable m m' C names names' (List.Ico first func) (List.Ico first' func')
      (m.kind func) (m'.kind func'))
    (harg : Pairable m m' C names names' (List.Ico (func + 1) arg) (List.Ico (func' + 1) arg')
      (m.kind arg) (m'.kind arg')) (hle : first ≤ func ∧ func + 1 ≤ arg)
    (hle' : first' ≤ func' ∧ func' + 1 ≤ arg') :
    Pairable m m' C names names' (List.Ico first (arg + 1)) (List.Ico first' (arg' + 1))
      (.application func arg) (.application func' arg') := by
  obtain ⟨pairs, hpairs, hnode⟩ := hfunc.node hle.1 hle'.1
  obtain ⟨others, hothers, hnode'⟩ := harg.node hle.2 hle'.2
  refine ⟨_, hpairs.consecutive hothers (by omega) (by omega), fun _ hall => ?_⟩
  obtain ⟨hfirst, hrest⟩ := List.forall_mem_append.mp hall
  exact .application (hfirst _ hnode) (hrest _ hnode')

/-- The nodes that are bound in two frames are paired in order. -/
def framePairs (frame frame' : Bindings) : List (NodeId × NodeId) :=
  (frame.map (·.2)).zip (frame'.map (·.2))

/-- Frames with the same keys are aligned by a relation that holds of their pairs. -/
theorem aligned_of_framePairs (hkeys : frame.map (·.1) = frame'.map (·.1))
    (h : ∀ pair ∈ framePairs frame frame', R pair.1 pair.2) : Aligned R frame frame' := by
  induction frame generalizing frame' with
  | nil =>
    rw [List.map_nil, eq_comm, List.map_eq_nil_iff] at hkeys
    rw [hkeys]
    exact .nil
  | cons binding rest ih =>
    cases frame' with
    | nil => cases hkeys
    | cons binding' rest' =>
      rw [List.map_cons, List.map_cons, List.cons.injEq] at hkeys
      obtain ⟨hfirst, hrest⟩ := List.forall_mem_cons.mp h
      exact .cons ⟨hkeys.1, hfirst⟩ (ih hkeys.2 hrest)

theorem length_eq_of_keys (hkeys : frame.map (·.1) = frame'.map (·.1)) :
    (frame.map (·.2)).length = (frame'.map (·.2)).length := by
  simpa using congrArg List.length hkeys

theorem framePairs_left (hkeys : frame.map (·.1) = frame'.map (·.1)) :
    (framePairs frame frame').map (·.1) = frame.map (·.2) :=
  List.map_fst_zip (Nat.le_of_eq (length_eq_of_keys hkeys))

theorem framePairs_right (hkeys : frame.map (·.1) = frame'.map (·.1)) :
    (framePairs frame frame').map (·.2) = frame'.map (·.2) :=
  List.map_snd_zip (Nat.le_of_eq (length_eq_of_keys hkeys).symm)

theorem Paired.of_perm {nodes} (h : Paired m m' C names names' nodes nodes' pairs)
    (hperm : nodes.Perm more) (hperm' : nodes'.Perm more') :
    Paired m m' C names names' more more' pairs :=
  ⟨h.left.trans hperm, h.right.trans hperm', h.kinds⟩

/-- A scope is entered: the nodes of its names are paired too, and what stands in the scope may use
them. -/
theorem Paired.enter {inner inner' : Names} {nodes : List NodeId} {slots : List (NodeId × NodeId)}
    (hleft : (slots.map (·.1)).Perm nodes) (hright : (slots.map (·.2)).Perm nodes')
    (hinner : ∀ {R}, Names.Alike m' R names names' →
      (∀ pair ∈ slots, R pair.1 pair.2) → Names.Alike m' R inner inner')
    (hslots : ∀ {R}, Names.Alike m' R inner inner' →
      (∀ pair ∈ pairs, R pair.1 pair.2) →
      ∀ pair ∈ slots, Matching m m' C R (m.kind pair.1) (m'.kind pair.2))
    (h : Paired m m' C inner inner' more more' pairs) :
    Paired m m' C names names' (nodes ++ more) (nodes' ++ more') (slots ++ pairs) where
  left := by
    rw [List.map_append]
    exact hleft.append h.left
  right := by
    rw [List.map_append]
    exact hright.append h.right
  kinds hnames hall := by
    obtain ⟨hfirst, hrest⟩ := List.forall_mem_append.mp hall
    have hnames' := hinner hnames hfirst
    exact List.forall_mem_append.mpr ⟨hslots hnames' hrest, h.kinds hnames' hrest⟩

/-! ## Functions -/

theorem Parameters.matching (h : Parameters m names params frame)
    (h' : Parameters m' names' params' frame') :
    ∀ pair ∈ framePairs frame frame', Matching m m' C R (m.kind pair.1) (m'.kind pair.2) := by
  rintro ⟨node, node'⟩ hpair
  obtain ⟨hnode, hnode'⟩ := List.of_mem_zip hpair
  obtain ⟨binding, hbinding, rfl⟩ := List.mem_map.mp hnode
  obtain ⟨binding', hbinding', rfl⟩ := List.mem_map.mp hnode'
  rw [h.placeholder binding hbinding, h'.placeholder binding' hbinding']
  exact .placeholder

/-- The parameters of a function are paired in order, and then its body. -/
theorem BuiltLambda.pairable {low high low' high' inside inside' e e'}
    (hparams : SameNames params params')
    (h : BuiltLambda m first last low high inside names params e kind)
    (h' : BuiltLambda m' first' last' low' high' inside' names' params' e' kind')
    (hbody : ∀ {first last low high first' last' low' high' scope scope' frame frame' kind kind'},
      Built m first last low high scope (frame :: names) e kind →
      Built m' first' last' low' high' scope' (frame' :: names') e' kind' →
      Pairable m m' C (frame :: names) (frame' :: names') (List.Ico first last)
        (List.Ico first' last') kind kind') :
    Pairable m m' C names names' (List.Ico first last) (List.Ico first' last') kind kind' := by
  cases h with
  | @mk _ middle _ _ _ _ _ _ body _ _ hframe hnodes hle hbuilt =>
    cases h' with
    | @mk _ middle' _ _ _ _ _ _ body' _ _ hframe' hnodes' hle' hbuilt' =>
      have hkeys : (m.scopes.bindings low).map (·.1) =
          (m'.scopes.bindings low').map (·.1) := by
        rw [hframe.keys, hframe'.keys, paramKeys_of_sameNames hparams]
      obtain ⟨pairs, hpairs, hnode⟩ := (hbody hbuilt hbuilt').node hbuilt.le hbuilt'.le
      have hinner : ∀ {R}, Names.Alike m' R names names' →
          (∀ pair ∈ framePairs (m.scopes.bindings low) (m'.scopes.bindings low'),
            R pair.1 pair.2) →
          Names.Alike m' R (m.scopes.bindings low :: names)
            (m'.scopes.bindings low' :: names') := fun hnames hall =>
        hnames.cons (aligned_of_framePairs hkeys hall).lookup
      refine ⟨framePairs (m.scopes.bindings low) (m'.scopes.bindings low') ++ pairs, ?_, ?_⟩
      · have hle₂ := hbuilt.le
        have hle₂' := hbuilt'.le
        rw [← List.Ico.append_consecutive hle (by omega : middle ≤ body + 1),
          ← List.Ico.append_consecutive hle' (by omega : middle' ≤ body' + 1), ← hnodes,
          ← hnodes']
        refine Paired.enter ?_ ?_ hinner (fun _ _ => hframe.matching hframe') hpairs
        · rw [framePairs_left hkeys]
        · rw [framePairs_right hkeys]
      · intro R hnames hall
        obtain ⟨hfirst, hrest⟩ := List.forall_mem_append.mp hall
        have haligned := aligned_of_framePairs hkeys hfirst
        refine .lambda ?_ (hrest _ hnode)
        rw [List.forall₂_map_left_iff, List.forall₂_map_right_iff]
        exact haligned.imp fun _ _ hbinding => hbinding.2

/-! ## Blocks -/

end

/-- What was made for one declaration: the binding that it has, and the nodes of its body. -/
inductive BuiltDecl (m : Module) (inside : ScopeId) (names : Names) :
    Decl → Bindings × List NodeId → Prop
  | function {first last low high name params e span node}
      (hnode : BuiltLambda m first last low high inside names params e (m.kind node)) :
      BuiltDecl m inside names (.function name params e span)
        ([(name.name, node)], List.Ico first last)
  | value {first last low high name e span node}
      (hnode : Built m first last low high inside names e (m.kind node)) :
      BuiltDecl m inside names (.value name e span) ([(name.name, node)], List.Ico first last)
  | signature {ids span} : BuiltDecl m inside names (.signature ids span) ([], [])

/-- A block is put together from its declarations, in whatever order they are taken. -/
theorem BuiltBlock.pieces {frame first last low high}
    (h : BuiltBlock m first last low high inside names decls frame) :
    ∃ pieces, List.Forall₂ (BuiltDecl m inside names) decls pieces ∧
      pieces.flatMap (·.1) = frame ∧ pieces.flatMap (·.2) = List.Ico first last := by
  induction decls generalizing frame first low with
  | nil =>
    cases h
    exact ⟨[], .nil, rfl, List.Ico.self_empty.symm⟩
  | cons decl rest ih =>
    cases h with
    | function hnode hrest =>
      obtain ⟨pieces, hpieces, rfl, hnodes⟩ := ih hrest
      refine ⟨_, .cons (.function hnode) hpieces, rfl, ?_⟩
      rw [List.flatMap_cons, hnodes, List.Ico.append_consecutive hnode.le hrest.le]
    | value hnode hrest =>
      obtain ⟨pieces, hpieces, rfl, hnodes⟩ := ih hrest
      refine ⟨_, .cons (.value hnode) hpieces, rfl, ?_⟩
      rw [List.flatMap_cons, hnodes, List.Ico.append_consecutive hnode.le hrest.le]
    | signature hrest =>
      obtain ⟨pieces, hpieces, rfl, hnodes⟩ := ih hrest
      exact ⟨_, .cons .signature hpieces, rfl, hnodes⟩

theorem pieces_keys {pieces} (h : List.Forall₂ (BuiltDecl m inside names) decls pieces) :
    (pieces.flatMap (·.1)).map (·.1) = declNames decls := by
  induction h with
  | nil => rfl
  | cons hdecl _ ih =>
    cases hdecl with
    | function => exact congrArg (List.cons _) ih
    | value => exact congrArg (List.cons _) ih
    | signature => exact ih

/-- The nodes that were made for bodies can be paired so that the contents of the names match. -/
def PairableBlock (m m' : Module) (C : String → Prop) (names names' : Names)
    (pieces pieces' : List (Bindings × List NodeId)) : Prop :=
  ∃ pairs, Paired m m' C names names' (pieces.flatMap (·.2)) (pieces'.flatMap (·.2)) pairs ∧
    ∀ {R}, Names.Alike m' R names names' →
      (∀ pair ∈ pairs, R pair.1 pair.2) →
      ∀ pair ∈ framePairs (pieces.flatMap (·.1)) (pieces'.flatMap (·.1)),
        Matching m m' C R (m.kind pair.1) (m'.kind pair.2)

/-- The names of two blocks are paired by `slots`, and what was made for their bodies by `pairs`. -/
structure PairedBlock (m m' : Module) (C : String → Prop) (names names' : Names)
    (frame frame' : Bindings) (nodes nodes' : List NodeId) (slots pairs : List (NodeId × NodeId)) :
    Prop where
  left : (slots.map (·.1)).Perm (frame.map (·.2))
  right : (slots.map (·.2)).Perm (frame'.map (·.2))
  lookup : ∀ {R}, (∀ pair ∈ slots, R pair.1 pair.2) →
    ∀ name, Option.Rel R (frame.lookup name) (frame'.lookup name)
  kinds : ∀ {R}, Names.Alike m' R (frame :: names) (frame' :: names') →
    (∀ pair ∈ pairs, R pair.1 pair.2) →
    ∀ pair ∈ slots, Matching m m' C R (m.kind pair.1) (m'.kind pair.2)
  bodies : Paired m m' C (frame :: names) (frame' :: names') nodes nodes' pairs

section

variable {m m' : Module} {C : String → Prop} {options : LowerOptions} {names names' : Names}
  {frame frame' : Bindings} {operators : Bool} {tree tree' : Surface.Module} {nodes' : List NodeId}
  {inside : ScopeId} {decls : List Decl}

theorem PairedBlock.entered {nodes slots pairs}
    (h : PairedBlock m m' C names names' frame frame' nodes nodes' slots pairs) {more more' others}
    (hmore : Paired m m' C (frame :: names) (frame' :: names') more more' others) :
    Paired m m' C names names' (frame.map (·.2) ++ (nodes ++ more))
      (frame'.map (·.2) ++ (nodes' ++ more')) (slots ++ (pairs ++ others)) :=
  Paired.enter h.left h.right (fun hnames hall => hnames.cons (h.lookup hall))
    (fun hinner hall => h.kinds hinner (List.forall_mem_append.mp hall).1) (h.bodies.append hmore)

/-- A binding, and those of the rest of its block. -/
theorem Pairable.cons {nodes node node' name name' pieces pieces'}
    (h : Pairable m m' C names names' nodes nodes' (m.kind node) (m'.kind node'))
    (hrest : PairableBlock m m' C names names' pieces pieces') :
    PairableBlock m m' C names names' (([(name, node)], nodes) :: pieces)
      (([(name', node')], nodes') :: pieces') := by
  obtain ⟨pairs, hpairs, hkind⟩ := h
  obtain ⟨others, hothers, hkinds⟩ := hrest
  refine ⟨_, hpairs.append hothers, fun hnames hall => ?_⟩
  obtain ⟨hfirst, hlast⟩ := List.forall_mem_append.mp hall
  exact List.forall_mem_cons.mpr ⟨hkind hnames hfirst, hkinds hnames hlast⟩

/-- Blocks are paired once the declarations of the one are put into the order of the other. -/
theorem BuiltBlock.paired {inside' middle decls' first last low high first' last' low' high'}
    (hperm : decls.Perm middle) (hdecls : AlignedDecls middle decls')
    (hnodup : (declNames decls).Nodup)
    (h : BuiltBlock m first last low high inside (frame :: names) decls frame)
    (h' : BuiltBlock m' first' last' low' high' inside' (frame' :: names') decls' frame')
    (hmiddle : ∀ {pieces pieces'},
      List.Forall₂ (BuiltDecl m inside (frame :: names)) middle pieces →
      List.Forall₂ (BuiltDecl m' inside' (frame' :: names')) decls' pieces' →
      PairableBlock m m' C (frame :: names) (frame' :: names') pieces pieces') :
    ∃ slots pairs, PairedBlock m m' C names names' frame frame' (List.Ico first last)
      (List.Ico first' last') slots pairs := by
  obtain ⟨pieces, hpieces, hframe, hnodes⟩ := h.pieces
  obtain ⟨pieces', hpieces', hframe', hnodes'⟩ := h'.pieces
  obtain ⟨sorted, hsorted, hsame⟩ := List.perm_comp_forall₂ hperm.symm hpieces
  obtain ⟨pairs, hpairs, hkinds⟩ := hmiddle hsorted hpieces'
  have hkeys : (sorted.flatMap (·.1)).map (·.1) = (pieces'.flatMap (·.1)).map (·.1) := by
    rw [pieces_keys hsorted, pieces_keys hpieces', declNames_aligned hdecls]
  have hframes : (sorted.flatMap (·.1)).Perm frame := hframe ▸ hsame.flatMap_right _
  refine ⟨framePairs (sorted.flatMap (·.1)) (pieces'.flatMap (·.1)), pairs, ?_, ?_, ?_, hkinds, ?_⟩
  · rw [framePairs_left hkeys]
    exact hframes.map _
  · rw [framePairs_right hkeys, hframe']
  · intro R hall name
    -- no name is bound twice, so the order of the bindings has no say in what a name stands for
    have hlookup := lookup_eq_of_perm hframes
      (by rw [pieces_keys hsorted]; exact (declNames_perm hperm).nodup_iff.mp hnodup) name
    rw [← hlookup, ← hframe']
    exact (aligned_of_framePairs hkeys hall).lookup name
  · exact hpairs.of_perm (hnodes ▸ hsame.flatMap_right _) (hnodes' ▸ .refl _)

mutual

/-- The nodes that were made for two expressions that are the same up to the order of declarations
can be paired. -/
theorem Built.pairable
    {bound first last low high first' last' low' high' inside inside' names names' kind kind' e e'}
    :
    e.Reordered e' → Accepts options bound e → (∀ name ∈ e.constructors, C name) →
      Built m first last low high inside names e kind →
      Built m' first' last' low' high' inside' names' e' kind' →
      Pairable m m' C names names' (List.Ico first last) (List.Ico first' last') kind kind'
  | .var hname => by
    rintro _ _ ⟨hresolves⟩ ⟨hresolves'⟩
    rw [List.Ico.self_empty, List.Ico.self_empty]
    exact .of_matching fun hnames => Resolves.matching hnames hname hresolves hresolves'
  | .con hname => by
    rintro _ hcon ⟨⟩ ⟨⟩
    rw [List.Ico.self_empty, List.Ico.self_empty]
    refine .of_matching fun _ => ?_
    rw [← hname]
    exact .constructor (hcon _ (List.mem_singleton_self _))
  | .lit => by
    rintro _ _ ⟨⟩ ⟨⟩
    rw [List.Ico.self_empty, List.Ico.self_empty]
    exact .of_matching fun _ => .literal
  | .neg he => by
    intro haccepts hcon h h'
    cases h with | neg hfunc harg =>
    cases h' with | neg hfunc' harg' =>
    have hnegate : Pairable m m' C names names' (List.Ico first first) (List.Ico first' first')
        (m.kind first) (m'.kind first') := by
      rw [List.Ico.self_empty, List.Ico.self_empty, hfunc, hfunc']
      exact .of_matching fun _ => .intrinsic
    exact hnegate.application (Built.pairable he haccepts hcon harg harg')
      ⟨Nat.le_refl _, harg.le⟩ ⟨Nat.le_refl _, harg'.le⟩
  | .binOp hname hl hr => by
    intro haccepts hcon h h'
    cases h with | binOp hop hlhs happlied hrhs =>
    cases h' with | binOp hop' hlhs' happlied' hrhs' =>
    obtain ⟨hconl, hconr⟩ := List.forall_mem_append.mp hcon
    have hoperator : Pairable m m' C names names' (List.Ico first first) (List.Ico first' first')
        (m.kind first) (m'.kind first') := by
      rw [List.Ico.self_empty, List.Ico.self_empty]
      exact .of_matching fun hnames => Resolves.matching hnames hname hop hop'
    have hle := hlhs.le
    have hle' := hlhs'.le
    -- the operator and its left side are a node of their own
    have hpair := hoperator.application (Built.pairable hl haccepts.2.1 hconl hlhs hlhs')
      ⟨Nat.le_refl _, hle⟩ ⟨Nat.le_refl _, hle'⟩
    rw [← happlied, ← happlied'] at hpair
    exact hpair.application (Built.pairable hr haccepts.2.2 hconr hrhs hrhs')
      ⟨by omega, hrhs.le⟩ ⟨by omega, hrhs'.le⟩
  | .app hf ha => by
    intro haccepts hcon h h'
    cases h with | app hfunc harg =>
    cases h' with | app hfunc' harg' =>
    obtain ⟨hconf, hcona⟩ := List.forall_mem_append.mp hcon
    exact (Built.pairable hf haccepts.1 hconf hfunc hfunc').application
      (Built.pairable ha haccepts.2 hcona harg harg') ⟨hfunc.le, harg.le⟩ ⟨hfunc'.le, harg'.le⟩
  | .cond hc ht he => by
    intro haccepts hcon h h'
    cases h with | cond htest htrue hfalse =>
    cases h' with | cond htest' htrue' hfalse' =>
    obtain ⟨hcon, hcone⟩ := List.forall_mem_append.mp hcon
    obtain ⟨hconc, hcont⟩ := List.forall_mem_append.mp hcon
    obtain ⟨pairs, hpairs, hnode⟩ :=
      (Built.pairable hc haccepts.1 hconc htest htest').node htest.le htest'.le
    obtain ⟨others, hothers, hnode'⟩ :=
      (Built.pairable ht haccepts.2.1 hcont htrue htrue').node htrue.le htrue'.le
    obtain ⟨more, hmore, hnode''⟩ :=
      (Built.pairable he haccepts.2.2 hcone hfalse hfalse').node hfalse.le hfalse'.le
    have hle := htest.le
    have hle' := htest'.le
    have hle₂ := htrue.le
    have hle₂' := htrue'.le
    have hle₃ := hfalse.le
    have hle₃' := hfalse'.le
    refine ⟨_, (hpairs.consecutive hothers (by omega) (by omega)).consecutive hmore (by omega)
      (by omega), fun _ hall => ?_⟩
    obtain ⟨hall, hlast⟩ := List.forall_mem_append.mp hall
    obtain ⟨hfirst, hrest⟩ := List.forall_mem_append.mp hall
    exact .conditional (hfirst _ hnode) (hrest _ hnode') (hlast _ hnode'')
  | .letIn hperm hdecls he => by
    intro haccepts hcon h h'
    cases h with | letIn _ hslots hle hblock hbody =>
    cases h' with | letIn _ hslots' hle' hblock' hbody' =>
    obtain ⟨hcond, hcone⟩ := List.forall_mem_append.mp hcon
    obtain ⟨slots, pairs, hblocks⟩ := hblock.paired hperm hdecls haccepts.1.1 hblock'
      (pairable_block hdecls ((acceptsBlock_of_perm hperm).mp haccepts.2.1)
        fun name hname => hcond name ((Surface.mem_declConstructors_of_perm hperm).mpr hname))
    obtain ⟨others, hothers, hkind⟩ := Built.pairable he haccepts.2.2 hcone hbody hbody'
    refine ⟨slots ++ (pairs ++ others), ?_, ?_⟩
    · rw [← List.Ico.append_consecutive hle (Nat.le_trans hblock.le hbody.le),
        ← List.Ico.append_consecutive hblock.le hbody.le,
        ← List.Ico.append_consecutive hle' (Nat.le_trans hblock'.le hbody'.le),
        ← List.Ico.append_consecutive hblock'.le hbody'.le, ← hslots, ← hslots']
      exact hblocks.entered hothers
    · intro R hnames hall
      obtain ⟨hfirst, hrest⟩ := List.forall_mem_append.mp hall
      exact hkind (hnames.cons (hblocks.lookup hfirst)) (List.forall_mem_append.mp hrest).2
  | .lambda hparams he => by
    intro haccepts hcon h h'
    cases h with | lambda hlambda =>
    cases h' with | lambda hlambda' =>
    exact hlambda.pairable hparams hlambda' fun hbody hbody' =>
      Built.pairable he haccepts.2 hcon hbody hbody'
  | .caseOf _ => nofun
  | .doBlock => nofun
  | .tuple _ => nofun
  | .list _ => nofun

/-- The nodes of blocks with the same declarations in order can be paired. -/
theorem pairable_block {bound inside inside' names names' decls decls'} :
    AlignedDecls decls decls' → AcceptsBlock options bound decls →
      (∀ name ∈ Surface.declConstructors decls, C name) →
      ∀ {pieces pieces'}, List.Forall₂ (BuiltDecl m inside names) decls pieces →
      List.Forall₂ (BuiltDecl m' inside' names') decls' pieces' →
      PairableBlock m m' C names names' pieces pieces'
  | .nil => by
    rintro _ _ _ _ ⟨⟩ ⟨⟩
    exact ⟨[], .nil, fun _ _ => List.forall_mem_nil _⟩
  | .function _ hparams he hrest => by
    rintro haccepts hcon _ _ (_ | ⟨hdecl, hpieces⟩) (_ | ⟨hdecl', hpieces'⟩)
    cases hdecl with | function hnode =>
    cases hdecl' with | function hnode' =>
    obtain ⟨hcone, hconrest⟩ := List.forall_mem_append.mp hcon
    have hbody := hnode.pairable hparams hnode' fun hbody hbody' =>
      Built.pairable he haccepts.1.2 hcone hbody hbody'
    exact hbody.cons (pairable_block hrest haccepts.2 hconrest hpieces hpieces')
  | .value _ he hrest => by
    rintro haccepts hcon _ _ (_ | ⟨hdecl, hpieces⟩) (_ | ⟨hdecl', hpieces'⟩)
    cases hdecl with | value hnode =>
    cases hdecl' with | value hnode' =>
    obtain ⟨hcone, hconrest⟩ := List.forall_mem_append.mp hcon
    exact (Built.pairable he haccepts.1 hcone hnode hnode').cons
      (pairable_block hrest haccepts.2 hconrest hpieces hpieces')
  | .signature _ hrest => by
    rintro haccepts hcon _ _ (_ | ⟨⟨⟩, hpieces⟩) (_ | ⟨⟨⟩, hpieces'⟩)
    exact (pairable_block hrest haccepts hcon hpieces hpieces' :)
  | .unsupported _ => by
    rintro _ _ _ _ (_ | ⟨⟨⟩, _⟩)

end

/-! ## Modules -/

/-- The bindings of the prelude are paired in order. -/
theorem LoweredPrelude.paired (h : LoweredPrelude m operators frame)
    (h' : LoweredPrelude m' operators frame') :
    frame.map (·.1) = frame'.map (·.1) ∧ ∀ pair ∈ framePairs frame frame',
      ∃ op, m.kind pair.1 = .intrinsic op ∧ m'.kind pair.2 = .intrinsic op := by
  unfold LoweredPrelude at h h'
  generalize Lowering.preludeNames operators = entries at h h'
  induction h generalizing frame' with
  | nil =>
    cases h'
    exact ⟨rfl, List.forall_mem_nil _⟩
  | cons hentry _ ih =>
    cases h' with
    | cons hentry' hrest' =>
      obtain ⟨hkeys, hkinds⟩ := ih hrest'
      exact ⟨congrArg₂ List.cons (hentry.1.trans hentry'.1.symm) hkeys,
        List.forall_mem_cons.mpr ⟨⟨_, hentry.2, hentry'.2⟩, hkinds⟩⟩

/-- The nodes of a module: those of the prelude, those of the definitions and those of their bodies
come one after the other. -/
theorem BuiltModule.nodes (h : BuiltModule m operators tree) :
    ∃ first last low high, BuiltBlock m first last low high m.top
        [m.definitions, m.scopes.bindings m.root] tree.decls m.definitions ∧
      ((m.scopes.bindings m.root).map (·.2) ++
        (m.definitions.map (·.2) ++ List.Ico first last)).Nodup := by
  obtain ⟨slots, hslots, hle, hblock⟩ := h.definitions
  refine ⟨slots, _, _, _, hblock, ?_⟩
  rw [h.preludeNodes, hslots, List.Ico.append_consecutive hle hblock.le, ← List.Ico.zero_bot,
    List.Ico.append_consecutive (Nat.zero_le _) (Nat.le_trans hle hblock.le)]
  exact List.Ico.nodup _ _

/-- All nodes of two modules can be paired, so that definitions of one name are. -/
theorem BuiltModule.paired (htree : tree.Reordered tree')
    (haccepts : AcceptsModule options tree.decls)
    (hcon : ∀ name ∈ Surface.declConstructors tree.decls, C name)
    (h : BuiltModule m options.preludeOperators tree)
    (h' : BuiltModule m' options.preludeOperators tree') :
    ∃ pairs nodes nodes', Paired m m' C [] [] nodes nodes' pairs ∧ nodes.Nodup ∧ nodes'.Nodup ∧
      ∀ {R}, (∀ pair ∈ pairs, R pair.1 pair.2) →
        ∀ name, Option.Rel R (m.definition? name) (m'.definition? name) := by
  obtain ⟨middle, hperm, hdecls⟩ := htree.decls
  obtain ⟨first, last, _, _, hblock, hnodup⟩ := h.nodes
  obtain ⟨first', last', _, _, hblock', hnodup'⟩ := h'.nodes
  obtain ⟨hkeys, hkinds⟩ := h.prelude.paired h'.prelude
  obtain ⟨slots, pairs, hblocks⟩ := hblock.paired hperm hdecls haccepts.1.1 hblock'
    (pairable_block hdecls ((acceptsBlock_of_perm hperm).mp haccepts.2)
      fun name hname => hcon name ((Surface.mem_declConstructors_of_perm hperm).mpr hname))
  have hinner := hblocks.entered Paired.nil
  simp only [List.append_nil] at hinner
  refine ⟨_, _, _, Paired.enter (.of_eq (framePairs_left hkeys)) (.of_eq (framePairs_right hkeys))
    (fun hnames hall => hnames.cons (aligned_of_framePairs hkeys hall).lookup) (fun _ _ => ?_)
    hinner, hnodup, hnodup', fun hall => ?_⟩
  · intro pair hpair
    obtain ⟨op, hop, hop'⟩ := hkinds pair hpair
    rw [hop, hop']
    exact .intrinsic
  · exact hblocks.lookup fun pair hpair =>
      hall pair (List.mem_append_right _ (List.mem_append_left _ hpair))

/-- The definitions of a module that was lowered have names of their own. -/
theorem BuiltModule.keys (h : BuiltModule m operators tree) :
    m.definitions.map (·.1) = declNames tree.decls := by
  obtain ⟨_, _, _, hblock⟩ := h.definitions
  exact hblock.keys

/-- Trees that are the same up to the order of declarations are lowered to twins. -/
theorem twins_of_reordered (htree : tree.Reordered tree') (hformed : Surface.FormedDecls tree.decls)
    (hcon : ∀ name ∈ Surface.declConstructors tree.decls, C name)
    (hm : (lowerModule options tree).1 = .ok m) (hm' : (lowerModule options tree').1 = .ok m') :
    ∃ R, Twins C R m m' := by
  have haccepts := (lowerModule_accepts options hformed).mp ⟨m, hm⟩
  have haccepts' := (acceptsModule_reordered htree).mp haccepts
  obtain ⟨_, hbuilt, hentry⟩ := lowerModule_built hformed hm
  obtain ⟨_, hbuilt', hentry'⟩ := lowerModule_built (htree.formed hformed) hm'
  obtain ⟨pairs, nodes, nodes', hpairs, hnodup, hnodup', hdefinition⟩ :=
    hbuilt.paired htree haccepts hcon hbuilt'
  have hleft := List.inj_on_of_nodup_map (hpairs.left.nodup_iff.mpr hnodup)
  have hright := List.inj_on_of_nodup_map (hpairs.right.nodup_iff.mpr hnodup')
  exact ⟨fun id id' => (id, id') ∈ pairs,
    { unique := ⟨fun _ _ _ ha hb => congrArg Prod.fst (hright ha hb rfl),
        fun _ _ _ hb hc => congrArg Prod.snd (hleft hb hc rfl)⟩
      kind := hpairs.kinds (fun _ => .nothing) (fun _ hpair => hpair) _
      definition := hdefinition fun _ hpair => hpair
      keys := hbuilt.keys ▸ haccepts.1.1
      keys' := hbuilt'.keys ▸ haccepts'.1.1
      entry := hentry.trans hentry'.symm }⟩

end

end Lamina.Core
