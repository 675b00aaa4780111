import Mathlib.Data.List.Induction
import Mathlib.Data.List.Nodup
import Lamina.Proofs.Core.Built

/-!
# The sites of a source text

Where a text binds names, where it refers to them, and where it has what lowering refuses. Each
binder and each use comes with the number of the node that stands for it, which is counted in the
tree alone: the nodes of an expression are those of its parts, one part after the other. Each use
also has the regions around it, so its binder can be read off the text.
-/

namespace Lamina.Core

open Lamina.Surface (Ident Expr Decl SourceName)

variable {name : String}

/-! ## Binders and uses -/

/-- A place in a syntax tree: the steps that lead there, the last of them first. -/
abbrev Path := List Nat

/-- An occurrence of a name that binds it. -/
structure Binder where
  name : String
  path : Path
  /-- The node that is added for it. -/
  node : NodeId
  /-- The contents that the node is added with. -/
  kind : NodeKind
deriving DecidableEq

/-- A part of a text, and what is bound in all of it. -/
structure Region where
  kind : ScopeKind
  /-- The names as an error shows them, those of wildcards among them. -/
  names : List String
  /-- All that can be referred to. -/
  binders : List Binder

namespace Region

def find? (region : Region) (name : String) : Option Binder :=
  region.binders.find? (·.name == name)

def frame (region : Region) : Frame := ⟨region.kind, region.names⟩

end Region

/-- An occurrence of a name that refers to it. -/
structure Use where
  id : Ident
  isOperator : Bool
  /-- The regions that the occurrence stands in, innermost first. -/
  regions : List Region
  /-- The node that has the reference as its contents. -/
  node : NodeId

namespace Use

/-- The innermost binder of the name. -/
def binder? (use : Use) : Option Binder := use.regions.findSome? (·.find? use.id.name)

/-- The names that are visible where the name stands. -/
def snapshot (use : Use) : Snapshot := use.regions.map Region.frame

end Use

/-- A place that lowering has to check. -/
inductive Site
  | block (decls : List Decl) (region : Region)
  | parameters (params : List Ident) (region : Region)
  /-- An expression of a kind that is not supported. -/
  | refused (e : Expr)
  | use (occurrence : Use)

/-- The binders of a place. -/
def Site.binders : Site → List Binder
  | .block _ region => region.binders
  | .parameters _ region => region.binders
  | .refused _ => []
  | .use _ => []

/-! ## Names of blocks -/

/-- The names that a block binds, with reserved nodes. -/
def Lowering.blockEntries (decls : List Decl) : List (String × NodeKind) :=
  decls.filterMap fun decl => decl.bound?.map fun name => (name.name, .noForm)

/-- The names that a block binds. -/
def declNames (decls : List Decl) : List String :=
  decls.filterMap fun decl => decl.bound?.map (·.name)

theorem map_fst_blockEntries (decls : List Decl) :
    (Lowering.blockEntries decls).map (·.1) = declNames decls := by
  simp [Lowering.blockEntries, declNames, List.map_filterMap, Function.comp_def]

/-- A declaration that is not refused. -/
def Supported : Decl → Prop
  | .unsupported .. => False
  | _ => True

/-- The names of a block can be bound: each of them once, and nothing in the block is refused. -/
def Bindable (decls : List Decl) : Prop :=
  (declNames decls).Nodup ∧ ∀ decl ∈ decls, Supported decl

theorem declNames_append (decls decls' : List Decl) :
    declNames (decls ++ decls') = declNames decls ++ declNames decls' :=
  List.filterMap_append

/-! ## The nodes of an expression -/

/-- What a node is added with, if it is one that has a name: the name and the contents. -/
abbrev Addition := Option (String × NodeKind)

def paramNodes (params : List Ident) : List Addition :=
  params.map fun param => some (param.name, .placeholder)

def blockNodes (decls : List Decl) : List Addition := (Lowering.blockEntries decls).map some

/-- The nodes of a function: those of its parameters and of its body, and one for the body. -/
def lambdaNodes (params : List Ident) (body : List Addition) : List Addition :=
  paramNodes params ++ (body ++ [none])

mutual

/-- The nodes that are added for the parts of an expression, in order. -/
def exprNodes : Expr → List Addition
  | .neg arg _ => some ("negate", .intrinsic .negate) :: (exprNodes arg ++ [none])
  | .binOp _ lhs rhs _ =>
    none :: (exprNodes lhs ++ (none :: none :: (exprNodes rhs ++ [none])))
  | .app func arg _ => exprNodes func ++ (none :: (exprNodes arg ++ [none]))
  | .cond test onTrue onFalse _ =>
    exprNodes test ++ (none :: (exprNodes onTrue ++ (none :: (exprNodes onFalse ++ [none]))))
  | .letIn decls body _ => blockNodes decls ++ (bodyNodes decls ++ exprNodes body)
  | .lambda params body _ => lambdaNodes params (exprNodes body)
  | _ => []

/-- The nodes that are added for the bodies of a block. -/
def bodyNodes : List Decl → List Addition
  | .function _ params body _ :: rest => lambdaNodes params (exprNodes body) ++ bodyNodes rest
  | .value _ body _ :: rest => exprNodes body ++ bodyNodes rest
  | _ :: rest => bodyNodes rest
  | [] => []

end

/-- How many nodes are added for the parts of an expression. -/
def width (e : Expr) : Nat := (exprNodes e).length

section

variable {m : Module} {first last low high : Nat} {inside : ScopeId} {names : Names}

theorem BuiltBlock.keys {first last low high decls frame} :
    BuiltBlock m first last low high inside names decls frame → frame.map (·.1) = declNames decls
  | .nil => rfl
  | .function _ hrest => congrArg (List.cons _) hrest.keys
  | .value _ hrest => congrArg (List.cons _) hrest.keys
  | .signature hrest => hrest.keys

/-- The nodes of the names of a block are counted in its frame. -/
theorem BuiltBlock.length_frame {decls frame}
    (h : BuiltBlock m first last low high inside names decls frame) :
    frame.length = (blockNodes decls).length := by
  rw [blockNodes, List.length_map, ← List.length_map (·.1), h.keys, ← map_fst_blockEntries,
    List.length_map]

theorem nodes_of_length {frame : Bindings} {n} (h : frame.map (·.2) = List.Ico first last)
    (hle : first ≤ last) (hlength : frame.length = n) :
    last = first + n ∧ frame.map (·.2) = List.range' first n := by
  have hsize := congrArg List.length h
  simp only [List.length_map, List.Ico.length] at hsize
  obtain rfl : last = first + n := by omega
  rw [List.Ico, Nat.add_sub_cancel_left] at h
  exact ⟨rfl, h⟩

mutual

/-- As many nodes are made for an expression as are counted in it. -/
theorem Built.last_eq {first last low high inside names e kind} :
    Built m first last low high inside names e kind → last = first + width e
  | .var _ | .con | .lit => rfl
  | .neg _ harg => by
    simp +arith [width, exprNodes, harg.last_eq]
  | .binOp _ hlhs _ hrhs => by
    simp +arith [width, exprNodes, hrhs.last_eq, hlhs.last_eq]
  | .app hfunc harg => by
    simp +arith [width, exprNodes, harg.last_eq, hfunc.last_eq]
  | .cond htest htrue hfalse => by
    simp +arith [width, exprNodes, hfalse.last_eq, htrue.last_eq, htest.last_eq]
  | .letIn _ hslots hle hblock hbody => by
    have hstart := (nodes_of_length hslots hle hblock.length_frame).1
    simp [width, exprNodes, hbody.last_eq, hblock.last_eq, hstart, Nat.add_assoc]
  | .lambda h => h.last_eq

theorem BuiltLambda.last_eq {first last low high inside names params e kind} :
    BuiltLambda m first last low high inside names params e kind →
      last = first + (lambdaNodes params (exprNodes e)).length
  | .mk _ _ hparams hnodes hle hbody => by
    have hstart := (nodes_of_length hnodes hle hparams.length_eq).1
    simp [lambdaNodes, paramNodes, hbody.last_eq, width, hstart, Nat.add_assoc]

theorem BuiltBlock.last_eq {first last low high inside names decls frame} :
    BuiltBlock m first last low high inside names decls frame →
      last = first + (bodyNodes decls).length
  | .nil => rfl
  | .function hnode hrest => by
    rw [bodyNodes, List.length_append, hrest.last_eq, hnode.last_eq, Nat.add_assoc]
  | .value hnode hrest => by
    rw [bodyNodes, List.length_append, hrest.last_eq, hnode.last_eq, Nat.add_assoc]
    rfl
  | .signature hrest => hrest.last_eq

end

variable {e : Expr} {kind : NodeKind}

theorem Built.le (h : Built m first last low high inside names e kind) : first ≤ last :=
  h.last_eq ▸ Nat.le_add_right _ _

theorem BuiltLambda.le {params : List Ident}
    (h : BuiltLambda m first last low high inside names params e kind) : first ≤ last :=
  h.last_eq ▸ Nat.le_add_right _ _

theorem BuiltBlock.le {decls frame} (h : BuiltBlock m first last low high inside names decls frame)
    :
    first ≤ last :=
  h.last_eq ▸ Nat.le_add_right _ _

end

/-! ## Regions -/

/-- The binders of parameters, the first of which has the index and the node given. A wildcard binds
nothing, but it has an index and a node. -/
def paramBinders (path : Path) : (index : Nat) → (node : NodeId) → List Ident → List Binder
  | index, node, param :: rest =>
    let others := paramBinders path (index + 1) (node + 1) rest
    if param.name = "_" then others else ⟨param.name, index :: path, node, .placeholder⟩ :: others
  | _, _, [] => []

/-- The body of a function. -/
def paramRegion (path : Path) (first : NodeId) (params : List Ident) : Region :=
  ⟨.paramScope, paramKeys 0 params, paramBinders path 0 first params⟩

/-- The binders of names, the first of which has the index and the node given. -/
def nameBinders (path : Path) :
    (index : Nat) → (node : NodeId) → List (String × NodeKind) → List Binder
  | index, node, entry :: rest =>
    ⟨entry.1, index :: path, node, entry.2⟩ :: nameBinders path (index + 1) (node + 1) rest
  | _, _, [] => []

/-- A block and what follows it: its names are visible in all of it. -/
def blockRegion (kind : ScopeKind) (path : Path) (first : NodeId) (decls : List Decl) : Region :=
  ⟨kind, declNames decls, nameBinders path 0 first (Lowering.blockEntries decls)⟩

def preludeEntries (operators : Bool) : List (String × NodeKind) :=
  (Lowering.preludeNames operators).map fun entry => (entry.2, .intrinsic entry.1)

theorem map_fst_preludeEntries (operators : Bool) :
    (preludeEntries operators).map (·.1) = (Lowering.preludeNames operators).map (·.2) := by
  simp [preludeEntries, Function.comp_def]

theorem LoweredPrelude.keys {m operators frame} (h : LoweredPrelude m operators frame) :
    frame.map (·.1) = (Lowering.preludeNames operators).map (·.2) := by
  rw [← List.forall₂_eq_eq_eq, List.forall₂_map_left_iff, List.forall₂_map_right_iff]
  exact h.flip.imp fun _ _ hentry => hentry.1

/-- All of a text: the names of the prelude are visible everywhere. -/
def preludeRegion (operators : Bool) : Region :=
  ⟨.preludeScope, (preludeEntries operators).map (·.1),
    nameBinders [0] 0 0 (preludeEntries operators)⟩

/-- The names of a region are those of its binders, in order, and names that no text can spell. -/
structure Region.Tells (region : Region) : Prop where
  sublist : (region.binders.map (·.name)).Sublist region.names
  bound : ∀ name ∈ region.names, SourceName name → name ∈ region.binders.map (·.name)

theorem Region.tells_of_eq {region : Region} (h : region.binders.map (·.name) = region.names) :
    region.Tells := ⟨h ▸ .refl _, fun _ hname _ => h ▸ hname⟩

theorem map_name_nameBinders (path : Path) (index : Nat) (node : NodeId)
    (entries : List (String × NodeKind)) :
    (nameBinders path index node entries).map (·.name) = entries.map (·.1) := by
  induction entries generalizing index node with
  | nil => rfl
  | cons entry rest ih => rw [nameBinders, List.map_cons, ih, List.map_cons]

theorem tells_blockRegion (kind : ScopeKind) (path : Path) (first : NodeId) (decls : List Decl) :
    (blockRegion kind path first decls).Tells :=
  Region.tells_of_eq ((map_name_nameBinders path 0 first _).trans (map_fst_blockEntries decls))

theorem tells_preludeRegion (operators : Bool) : (preludeRegion operators).Tells :=
  Region.tells_of_eq (map_name_nameBinders [0] 0 0 _)

/-- The names of parameters are among the keys that they are bound under. -/
theorem names_sublist_paramKeys (index : Nat) (params : List Ident) :
    ((params.map (·.name)).filter (· ≠ "_")).Sublist (paramKeys index params) := by
  induction params generalizing index with
  | nil => exact .slnil
  | cons param rest ih =>
    by_cases hwild : param.name = "_"
    · simpa [paramKeys, hwild] using (ih (index + 1)).cons _
    · simpa [paramKeys, paramKey, hwild] using (ih (index + 1)).cons_cons param.name

/-- No text can spell the key of a wildcard. -/
theorem mem_paramKeys_iff (hname : SourceName name) (index : Nat) (params : List Ident) :
    name ∈ paramKeys index params ↔ name ∈ (params.map (·.name)).filter (· ≠ "_") := by
  induction params generalizing index with
  | nil => rfl
  | cons param rest ih =>
    rw [paramKeys, List.mem_cons, eq_comm, paramKey_eq_iff hname, ih]
    simp only [List.mem_filter, List.map_cons, List.mem_cons, decide_eq_true_eq]
    rw [or_and_right, eq_comm]

/-- Wildcards may be repeated: only names can be bound twice. -/
theorem nodup_paramKeys_iff {params} (hnames : ∀ param ∈ params, SourceName param.name) :
    (paramKeys 0 params).Nodup ↔ ((params.map (·.name)).filter (· ≠ "_")).Nodup := by
  refine ⟨fun h => h.sublist (names_sublist_paramKeys 0 params), fun h => ?_⟩
  induction params using List.reverseRecOn with
  | nil => exact List.nodup_nil
  | append_singleton params param ih =>
    obtain ⟨hbefore, hparam⟩ := List.forall_mem_append.mp hnames
    rw [List.map_append, List.filter_append] at h
    have hnew : paramKey params.length param ∉ paramKeys 0 params := by
      by_cases hwild : param.name = "_"
      · rw [paramKey, if_pos hwild]
        exact wildcard_not_mem_paramKeys hbefore (Nat.le_of_eq (Nat.zero_add _))
      · rw [paramKey, if_neg hwild, mem_paramKeys_iff (hparam param (by simp))]
        simp only [List.map_singleton, List.filter_singleton, decide_eq_true hwild] at h
        exact (List.nodup_cons.mp (List.perm_append_comm.nodup h)).1
    rw [paramKeys_snoc, Nat.zero_add, List.nodup_middle, List.append_nil]
    exact List.nodup_cons.mpr ⟨hnew, ih hbefore (List.nodup_append.mp h).1⟩

theorem map_name_paramBinders (path : Path) (index : Nat) (node : NodeId) (params : List Ident) :
    (paramBinders path index node params).map (·.name) =
      (params.map (·.name)).filter (· ≠ "_") := by
  induction params generalizing index node with
  | nil => rfl
  | cons param rest ih =>
    by_cases hwild : param.name = "_" <;> simp [paramBinders, hwild, ih]

theorem tells_paramRegion (path : Path) (first : NodeId) (params : List Ident) :
    (paramRegion path first params).Tells := by
  constructor
  · rw [paramRegion, map_name_paramBinders]
    exact names_sublist_paramKeys 0 params
  · intro name hmem hname
    rw [paramRegion, map_name_paramBinders]
    exact (mem_paramKeys_iff hname 0 params).mp hmem

/-- A name is bound in one of the regions around a place. -/
def Visible (regions : List Region) (name : String) : Prop :=
  ∃ region ∈ regions, name ∈ region.binders.map (·.name)

theorem Use.isSome_binder? (use : Use) : use.binder?.isSome ↔ Visible use.regions use.id.name := by
  simp [Use.binder?, Visible, Region.find?, List.findSome?_isSome_iff]

/-- A name of the text is bound around a place if and only if it is among the names shown there. -/
theorem contains_frames_iff {regions} (h : ∀ region ∈ regions, region.Tells)
    (hname : SourceName name) :
    Snapshot.contains (regions.map Region.frame) name ↔ Visible regions name := by
  simp only [Snapshot.contains, List.any_map, List.any_eq_true, Visible]
  refine exists_congr fun region => and_congr_right fun hregion => ?_
  simp only [Function.comp_apply, Region.frame, List.contains_iff_mem]
  exact ⟨fun hmem => (h region hregion).bound name hmem hname,
    fun hmem => (h region hregion).sublist.subset hmem⟩

/-! ## Sites -/

/-- The sites of a function, given those of its body. -/
def lambdaSites (path : Path) (first : NodeId) (regions : List Region) (params : List Ident)
    (body : NodeId → List Region → List Site) : List Site :=
  let region := paramRegion (0 :: path) first params
  .parameters params region :: body (first + params.length) (region :: regions)

mutual

/-- The sites of an expression that is the contents of `node`; the nodes of its parts are those from
`first` on. -/
def exprSites (path : Path) (first node : NodeId) (regions : List Region) : Expr → List Site
  | .var id => [.use ⟨id, isOperatorName id.name, regions, node⟩]
  | .con _ => []
  | .lit .. => []
  | .neg arg _ => exprSites (0 :: path) (first + 1) (first + 1 + width arg) regions arg
  | .binOp op lhs rhs _ =>
    let applied := first + 1 + width lhs + 1
    .use ⟨op, true, regions, first⟩ ::
      (exprSites (0 :: path) (first + 1) (first + 1 + width lhs) regions lhs ++
        exprSites (1 :: path) (applied + 1) (applied + 1 + width rhs) regions rhs)
  | .app func arg _ =>
    let start := first + width func + 1
    exprSites (0 :: path) first (first + width func) regions func ++
      exprSites (1 :: path) start (start + width arg) regions arg
  | .cond test onTrue onFalse _ =>
    let yes := first + width test + 1
    let no := yes + width onTrue + 1
    exprSites (0 :: path) first (first + width test) regions test ++
      (exprSites (1 :: path) yes (yes + width onTrue) regions onTrue ++
        exprSites (2 :: path) no (no + width onFalse) regions onFalse)
  | .letIn decls body _ =>
    let region := blockRegion .letScope (0 :: path) first decls
    let start := first + (blockNodes decls).length
    .block decls region :: (bodySites (1 :: path) 0 start first (region :: regions) decls ++
      exprSites (2 :: path) (start + (bodyNodes decls).length) node (region :: regions) body)
  | .lambda params body _ =>
    lambdaSites path first regions params fun start inner =>
      exprSites (1 :: path) start (start + width body) inner body
  | .caseOf scrutinee span =>
    .refused (.caseOf scrutinee span) :: exprSites (0 :: path) first node regions scrutinee
  | .doBlock span => [.refused (.doBlock span)]
  | .tuple elems span =>
    .refused (.tuple elems span) :: elemSites path 0 first node regions elems
  | .list elems span => .refused (.list elems span) :: elemSites path 0 first node regions elems

/-- The sites of the bodies of a block. The names of the block have the nodes from `slot` on. -/
def bodySites (path : Path) (index : Nat) (first slot : NodeId) (regions : List Region) :
    List Decl → List Site
  | .function _ params body _ :: rest =>
    let inside := index :: path
    (lambdaSites inside first regions params fun start inner =>
      exprSites (1 :: inside) start (start + width body) inner body) ++
      bodySites path (index + 1) (first + (lambdaNodes params (exprNodes body)).length) (slot + 1)
        regions rest
  | .value _ body _ :: rest =>
    exprSites (index :: path) first slot regions body ++
      bodySites path (index + 1) (first + width body) (slot + 1) regions rest
  | .signature .. :: rest => bodySites path (index + 1) first slot regions rest
  | .unsupported .. :: rest => bodySites path (index + 1) first slot regions rest
  | [] => []

/-- The sites of expressions next to each other. -/
def elemSites (path : Path) (index : Nat) (first node : NodeId) (regions : List Region) :
    List Expr → List Site
  | e :: rest =>
    exprSites (index :: path) first node regions e ++
      elemSites path (index + 1) first node regions rest
  | [] => []

end

section

variable (operators : Bool) (tree : Surface.Module)

/-- The region of all declarations of a module. -/
def moduleRegion : Region :=
  blockRegion .moduleScope [0, 1] (preludeEntries operators).length tree.decls

/-- The sites of a module. -/
def moduleSites : List Site :=
  let first := (preludeEntries operators).length
  .block tree.decls (moduleRegion operators tree) ::
    bodySites [1, 1] 0 (first + (blockNodes tree.decls).length) first
      [moduleRegion operators tree, preludeRegion operators] tree.decls

end

end Lamina.Core
