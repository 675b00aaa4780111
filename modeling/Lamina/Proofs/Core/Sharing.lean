import Lamina.Proofs.Core.Lowering

/-!
# Where names lead

The bindings in scope are the binders of the regions around a place (`Tracks`). The recursion over
what was built (`Built.located`) finds each binder at the node that is added for it, and each use of
a name at a node that refers to the node of its binder.
-/

namespace Lamina.Core

open Lamina.Surface (Ident Expr Decl SourceName FormedDecls)

/-! ## Binders and bindings -/

/-- The names of a text lead to the same nodes among binders and among bindings. -/
def Tracks (binders : List Binder) (frame : Bindings) : Prop :=
  ∀ name, SourceName name → frame.lookup name = (binders.find? (·.name == name)).map (·.node)

abbrev Region.Tracks (region : Region) (frame : Bindings) : Prop := Core.Tracks region.binders frame

theorem Tracks.cons {binders frame} (h : Tracks binders frame) (binder : Binder) :
    Tracks (binder :: binders) ((binder.name, binder.node) :: frame) := by
  intro name hname
  rw [List.lookup_cons, List.find?_cons, BEq.comm]
  cases binder.name == name with
  | true => rfl
  | false => exact h name hname

theorem tracks_names (path : Path) (index : Nat) (node : NodeId)
    (entries : List (String × NodeKind)) :
    Tracks (nameBinders path index node entries)
      ((entries.map (·.1)).zip (List.range' node entries.length)) := by
  induction entries generalizing index node with
  | nil => exact fun _ _ => rfl
  | cons entry rest ih => exact (ih (index + 1) (node + 1)).cons ⟨entry.1, _, node, entry.2⟩

theorem tracks_params (path : Path) (index : Nat) (node : NodeId) (params : List Ident) :
    Tracks (paramBinders path index node params)
      ((paramKeys index params).zip (List.range' node params.length)) := by
  induction params generalizing index node with
  | nil => exact fun _ _ => rfl
  | cons param rest ih =>
    have hrest := ih (index + 1) (node + 1)
    by_cases hwild : param.name = "_"
    · intro name hname
      have hne : name ≠ paramKey index param := fun heq =>
        ((paramKey_eq_iff hname index param).mp heq.symm).elim fun h hne => hne (h ▸ hwild)
      rw [paramBinders, if_pos hwild]
      exact (lookup_cons_of_ne hne _ _).trans (hrest name hname)
    · rw [paramBinders, if_neg hwild, paramKeys, paramKey, if_neg hwild]
      exact hrest.cons ⟨param.name, _, node, .placeholder⟩

/-- The bindings in scope lead where the innermost binder does. -/
theorem find_eq_of_tracks {regions} {names : Names} (h : List.Forall₂ Region.Tracks regions names)
    {name} (hname : SourceName name) :
    names.find? name = (regions.findSome? (·.find? name)).map (·.node) := by
  induction h with
  | nil => rfl
  | cons hregion _ ih =>
    unfold Names.find? at ih ⊢
    rw [List.findSome?_cons, List.findSome?_cons, hregion name hname, ih, Region.find?]
    cases List.find? .. <;> rfl

/-- What the node of a binder is added with, and its number. -/
def Binder.label (binder : Binder) : Addition × NodeId :=
  (some (binder.name, binder.kind), binder.node)

theorem label_nameBinders (path : Path) (index : Nat) (node : NodeId)
    (entries : List (String × NodeKind)) :
    (nameBinders path index node entries).map Binder.label = (entries.map some).zipIdx node := by
  induction entries generalizing index node with
  | nil => rfl
  | cons entry rest ih => exact congrArg (List.cons _) (ih (index + 1) (node + 1))

theorem label_paramBinders (path : Path) (index : Nat) (node : NodeId) (params : List Ident) :
    ((paramBinders path index node params).map Binder.label).Sublist
      ((paramNodes params).zipIdx node) := by
  induction params generalizing index node with
  | nil => exact .slnil
  | cons param rest ih =>
    unfold paramBinders
    dsimp only
    split
    · exact (ih _ _).cons _
    · exact (ih _ _).cons_cons _

/-! ## Uses -/

/-- The node of a use refers to the node of the innermost binder of the name, which is one of those
given. Where there is none, it is an intrinsic of that name. -/
def Use.Leads (m : Module) (binders : List Binder) (use : Use) : Prop :=
  match use.binder? with
  | some binder => binder ∈ binders ∧ m.kind use.node = .indirection binder.node
  | none => ∃ op, Intrinsic.ofSourceName? use.id.name = some op ∧ m.kind use.node = .intrinsic op

variable {m : Module} {regions : List Region} {names : Names}

theorem Use.Leads.mono {use binders binders'} (h : Use.Leads m binders use)
    (hsub : binders ⊆ binders') : Use.Leads m binders' use := by
  unfold Use.Leads at h ⊢
  split at h
  · exact ⟨hsub h.1, h.2⟩
  · exact h

theorem Use.Leads.target_iff {use binders} (h : Use.Leads m binders use) (target : NodeId) :
    m.kind use.node = .indirection target ↔
      ∃ binder ∈ binders, use.binder? = some binder ∧ binder.node = target := by
  unfold Use.Leads at h
  split at h
  · simp_all
  · obtain ⟨op, _, hop⟩ := h
    simp_all

theorem Resolves.leads {id node kind} (h : Resolves names id.name kind) (hnode : m.kind node = kind)
    (hname : SourceName id.name) (hregions : List.Forall₂ Region.Tracks regions names)
    (isOperator : Bool) :
    Use.Leads m (regions.flatMap (·.binders)) ⟨id, isOperator, regions, node⟩ := by
  have hfind := find_eq_of_tracks hregions hname
  unfold Use.Leads Use.binder?
  cases h with
  | bound htarget =>
    obtain ⟨binder, hbinder, rfl⟩ := Option.map_eq_some_iff.mp (hfind.symm.trans htarget)
    obtain ⟨region, hregion, hfound⟩ := List.exists_of_findSome?_eq_some hbinder
    simp only [hbinder]
    exact ⟨List.mem_flatMap_of_mem hregion (List.mem_of_find?_eq_some hfound), hnode⟩
  | catalog hnone hop =>
    simp only [Option.map_eq_none_iff.mp (hfind.symm.trans hnone)]
    exact ⟨_, hop, hnode⟩

/-- Sites in a part of a graph that is made from the node `first` on: the binders are at nodes that
are added under their names, and the uses lead to binders that are there or in the regions
around. -/
structure Located (m : Module) (regions : List Region) (first : NodeId) (made : List Addition)
    (sites : List Site) : Prop where
  labels : ((sites.flatMap Site.binders).map Binder.label).Sublist (made.zipIdx first)
  uses : ∀ use, .use use ∈ sites →
    use.Leads m (regions.flatMap (·.binders) ++ sites.flatMap Site.binders)

namespace Located

variable {first : NodeId} {made made' : List Addition} {sites sites' : List Site}

theorem nil (made : List Addition) : Located m regions first made [] :=
  ⟨List.nil_sublist _, by simp⟩

theorem use {occurrence} (h : Use.Leads m (regions.flatMap (·.binders)) occurrence) :
    Located m regions first [] [.use occurrence] :=
  ⟨.slnil, by simpa [Site.binders] using h⟩

theorem append (h : Located m regions first made sites)
    (h' : Located m regions (first + made.length) made' sites') :
    Located m regions first (made ++ made') (sites ++ sites') := by
  constructor
  · rw [List.flatMap_append, List.map_append, List.zipIdx_append]
    exact h.labels.append h'.labels
  · intro use huse
    rw [List.flatMap_append, ← List.append_assoc]
    rcases List.mem_append.mp huse with huse | huse
    · exact (h.uses use huse).mono (List.subset_append_left _ _)
    · exact (h'.uses use huse).mono (by grind)

/-- Nodes that are for no binder are added before. -/
theorem before (more : List Addition) (h : Located m regions (first + more.length) made sites) :
    Located m regions first (more ++ made) sites := (nil more).append h

/-- A node without a name is added after. -/
theorem after (h : Located m regions first made sites) :
    Located m regions first (made ++ [none]) sites := by
  simpa using h.append (nil [none])

/-- A site that binds names, and what stands in its region. -/
theorem scope {site region} (hsite : site.binders = region.binders)
    (hplain : ∀ use, .use use ≠ site)
    (hlabels : (region.binders.map Binder.label).Sublist (made.zipIdx first))
    (h : Located m (region :: regions) (first + made.length) made' sites) :
    Located m regions first (made ++ made') (site :: sites) := by
  constructor
  · rw [List.flatMap_cons, hsite, List.map_append, List.zipIdx_append]
    exact hlabels.append h.labels
  · intro use huse
    have hleads := h.uses use ((List.mem_cons.mp huse).resolve_left (hplain use))
    rw [List.flatMap_cons, hsite]
    exact hleads.mono (by simp only [List.flatMap_cons]; grind)

end Located

/-! ## Expressions -/

theorem BuiltBlock.tracks {first last low high inside decls frame slot}
    (h : BuiltBlock m first last low high inside names decls frame)
    (hnodes : frame.map (·.2) = List.range' slot (blockNodes decls).length) (kind path) :
    (blockRegion kind path slot decls).Tracks frame := by
  rw [blockNodes, List.length_map] at hnodes
  rw [List.zip_of_prod (h.keys.trans (map_fst_blockEntries decls).symm) hnodes]
  exact tracks_names path 0 slot _

mutual

/-- Each binder and each use of an expression is at the node that is counted for it. -/
theorem Built.located {first last low high inside names e kind regions node}
    (hregions : List.Forall₂ Region.Tracks regions names) (hnode : m.kind node = kind)
    (path : Path) : e.Formed → Built m first last low high inside names e kind →
      Located m regions first (exprNodes e) (exprSites path first node regions e)
  | hformed, .var h => by
    unfold exprNodes exprSites
    exact .use (h.leads hnode hformed hregions _)
  | _, .con | _, .lit => by
    unfold exprNodes exprSites
    exact .nil []
  | hformed, .neg _ harg => by
    unfold Expr.Formed at hformed
    have hpart := harg.located hregions rfl (0 :: path) hformed
    obtain rfl := harg.last_eq
    unfold exprNodes exprSites
    exact .before [_] hpart.after
  | hformed, .binOp hop hlhs _ hrhs => by
    have hleft := hlhs.located hregions rfl (0 :: path) hformed.2.1
    have hright := hrhs.located hregions rfl (1 :: path) hformed.2.2
    obtain rfl := hlhs.last_eq
    obtain rfl := hrhs.last_eq
    unfold exprNodes exprSites
    exact .append (.use (hop.leads rfl hformed.1 hregions true))
      (.before [none] (hleft.append (.before [none, none] hright.after)))
  | hformed, .app hfunc harg => by
    have hleft := hfunc.located hregions rfl (0 :: path) hformed.1
    have hright := harg.located hregions rfl (1 :: path) hformed.2
    obtain rfl := hfunc.last_eq
    obtain rfl := harg.last_eq
    unfold exprNodes exprSites
    exact hleft.append (.before [none] hright.after)
  | hformed, .cond htest htrue hfalse => by
    have hfirst := htest.located hregions rfl (0 :: path) hformed.1
    have hyes := htrue.located hregions rfl (1 :: path) hformed.2.1
    have hno := hfalse.located hregions rfl (2 :: path) hformed.2.2
    obtain rfl := htest.last_eq
    obtain rfl := htrue.last_eq
    obtain rfl := hfalse.last_eq
    unfold exprNodes exprSites
    exact hfirst.append (.before [none] (hyes.append (.before [none] hno.after)))
  | hformed, .letIn _ hslots hle hblock hbody => by
    obtain ⟨hstart, hnodes⟩ := nodes_of_length hslots hle hblock.length_frame
    have hinner := hregions.cons (hblock.tracks hnodes .letScope (0 :: path))
    have hbodies := hblock.located hinner (hblock.length_frame ▸ hnodes) (1 :: path) 0 hformed.1
    have hresult := hbody.located hinner hnode (2 :: path) hformed.2
    obtain rfl := hblock.last_eq
    subst hstart
    unfold exprNodes exprSites
    exact .scope rfl nofun (label_nameBinders .. ▸ .refl _) (hbodies.append hresult)
  | hformed, .lambda h => by
    unfold exprNodes exprSites
    exact h.located hregions path hformed.2

theorem BuiltLambda.located {first last low high inside names params e kind regions}
    (hregions : List.Forall₂ Region.Tracks regions names) (path : Path) (hformed : e.Formed) :
    BuiltLambda m first last low high inside names params e kind →
      Located m regions first (lambdaNodes params (exprNodes e)) (lambdaSites path first regions
        params fun start inner => exprSites (1 :: path) start (start + width e) inner e)
  | .mk _ _ hparams hnodes hle hbody => by
    obtain ⟨hstart, hnodes⟩ := nodes_of_length hnodes hle hparams.length_eq
    have htracks : (paramRegion (0 :: path) first params).Tracks (m.scopes.bindings low) := by
      rw [List.zip_of_prod hparams.keys hnodes]
      exact tracks_params (0 :: path) 0 first params
    have hpart := hbody.located (hregions.cons htracks) rfl (1 :: path) hformed
    obtain rfl := hbody.last_eq
    subst hstart
    refine .scope rfl nofun (label_paramBinders ..) ?_
    rw [paramNodes, List.length_map]
    exact hpart.after

theorem BuiltBlock.located {first last low high inside names decls frame regions slot}
    (hregions : List.Forall₂ Region.Tracks regions names)
    (hslots : frame.map (·.2) = List.range' slot frame.length) (path : Path) (index : Nat) :
    FormedDecls decls → BuiltBlock m first last low high inside names decls frame →
      Located m regions first (bodyNodes decls) (bodySites path index first slot regions decls)
  | _, .nil => by
    unfold bodyNodes bodySites
    exact .nil []
  | hformed, .function hnode hrest => by
    obtain ⟨rfl, hslots⟩ := List.cons.inj hslots
    have hbody := hnode.located hregions (index :: path) hformed.1.2
    have hothers := hrest.located hregions hslots path (index + 1) hformed.2
    obtain rfl := hnode.last_eq
    unfold bodyNodes bodySites
    exact hbody.append hothers
  | hformed, .value hnode hrest => by
    obtain ⟨rfl, hslots⟩ := List.cons.inj hslots
    have hbody := hnode.located hregions rfl (index :: path) hformed.1
    have hothers := hrest.located hregions hslots path (index + 1) hformed.2
    obtain rfl := hnode.last_eq
    unfold bodyNodes bodySites
    exact hbody.append hothers
  | hformed, .signature hrest => by
    unfold bodyNodes bodySites
    exact hrest.located hregions hslots path (index + 1) hformed

end

/-! ## Modules -/

section

variable (operators : Bool) (tree : Surface.Module)

/-- All binders of a text, those of the prelude first. -/
def moduleBinders : List Binder :=
  (preludeRegion operators).binders ++ (moduleSites operators tree).flatMap Site.binders

/-- All uses of names in a text. -/
def moduleUses : List Use :=
  (moduleSites operators tree).filterMap fun
    | .use occurrence => some occurrence
    | _ => none

end

variable {operators : Bool} {tree : Surface.Module}

/-- The binders and the uses of a text are where they are counted in the tree. -/
theorem BuiltModule.located (h : BuiltModule m operators tree) (hformed : FormedDecls tree.decls) :
    Located m [preludeRegion operators] (preludeEntries operators).length
      (blockNodes tree.decls ++ bodyNodes tree.decls) (moduleSites operators tree) := by
  obtain ⟨slots, hslots, hle, hblock⟩ := h.definitions
  have hsize : (Lowering.preludeNames operators).length = (preludeEntries operators).length :=
    (List.length_map _).symm
  rw [hsize] at hslots hle
  have hprelude : (preludeRegion operators).Tracks (m.scopes.bindings m.root) := by
    have hkeys := h.prelude.keys.trans (map_fst_preludeEntries operators).symm
    rw [List.zip_of_prod hkeys (h.preludeNodes.trans List.range_eq_range'), hsize]
    exact tracks_names [0] 0 0 _
  obtain ⟨rfl, hnodes⟩ := nodes_of_length hslots hle hblock.length_frame
  have htracks := hblock.tracks hnodes .moduleScope [0, 1]
  have hbodies := hblock.located (.cons htracks (.cons hprelude .nil))
    (hblock.length_frame ▸ hnodes) [1, 1] 0 hformed
  exact .scope rfl nofun (label_nameBinders .. ▸ .refl _) hbodies

theorem BuiltModule.label_binders (h : BuiltModule m operators tree)
    (hformed : FormedDecls tree.decls) : ((moduleBinders operators tree).map Binder.label).Sublist
      (Lowering.moduleNodes operators tree).zipIdx := by
  rw [moduleBinders, Lowering.moduleNodes, List.map_append, List.zipIdx_append, List.length_map,
    Nat.zero_add]
  exact .append (label_nameBinders .. ▸ .refl _) (h.located hformed).labels

theorem BuiltModule.uses_lead (h : BuiltModule m operators tree) (hformed : FormedDecls tree.decls)
    {use} (huse : .use use ∈ moduleSites operators tree) :
    use.Leads m (moduleBinders operators tree) := by
  simpa [moduleBinders] using (h.located hformed).uses use huse

end Lamina.Core
