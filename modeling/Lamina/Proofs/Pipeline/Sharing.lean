import Lamina.Proofs.Core.Sharing
import Lamina.Proofs.Pipeline.Stages

/-!
# References share the nodes of their binders

In the graph of a text each binder has a node of its own, and each use of a name refers to the node
of the binder that is found by looking outwards in the text.
-/

namespace Lamina

open Lamina.Core (lowerModule lowerHistory moduleBinders moduleUses)

/-- **References share the node of their binder.** In the graph that a text is lowered to, each
binder of the text (a parameter other than `_`, a binding of a block or of the module, a name of the
prelude) has a node of its own, which was added under its name. Each use of a name refers to the
node of the innermost binder of the name around it; if there is none, it is an operator and stands
for its intrinsic. So two uses refer to one node if and only if they have one binder, wherever they
stand. -/
theorem references_share_nodes {source : String} {tree : Surface.Module}
    {options : Core.LowerOptions} {m : Core.Module} (htree : parseSource source = .ok tree)
    (hm : (lowerModule options tree).1 = .ok m) :
    let binders := moduleBinders options.preludeOperators tree
    let uses := moduleUses options.preludeOperators tree
    ((binders.map (·.node)).Nodup ∧ ∀ binder ∈ binders,
      (Core.History.labels (lowerHistory options tree))[binder.node]? =
        some (some (binder.name, binder.kind))) ∧
    (∀ use ∈ uses, match use.binder? with
      | some binder => binder ∈ binders ∧ m.kind use.node = .indirection binder.node
      | none => use.isOperator = true ∧
          ∃ op, Intrinsic.ofSourceName? use.id.name = some op ∧ m.kind use.node = .intrinsic op) ∧
    ∀ use ∈ uses, ∀ other ∈ uses,
      (∃ target, m.kind use.node = .indirection target ∧
        m.kind other.node = .indirection target) ↔
      ∃ binder, use.binder? = some binder ∧ other.binder? = some binder := by
  intro binders uses
  have hformed := parseSource_formed htree
  have hchecks := Core.lowerModule_checks options hformed
  rw [hm] at hchecks
  obtain ⟨hlawful, st, hdeclares, heq, hhistory⟩ := hchecks
  have hbuilt := hdeclares.built
  rw [← heq] at hbuilt
  have hsublist := hbuilt.label_binders hformed
  have hnodes : (binders.map (·.node)).Nodup := by
    have hnumbers := hsublist.map Prod.snd
    rw [List.map_map, List.zipIdx_map_snd] at hnumbers
    exact (List.nodup_range' ..).sublist hnumbers
  have hleads : ∀ use ∈ uses, use.Leads m binders ∧ use.Known options := by
    intro use huse
    obtain ⟨site, hsite, hsome⟩ := List.mem_filterMap.mp huse
    split at hsome
    · cases hsome
      exact ⟨hbuilt.uses_lead hformed hsite, hlawful _ hsite⟩
    · cases hsome
  refine ⟨⟨hnodes, fun binder hbinder => ?_⟩, fun use huse => ?_, fun use huse other hother => ?_⟩
  · rw [hhistory, hdeclares.adds]
    exact List.mem_zipIdx_iff_getElem?.mp (hsublist.subset (List.mem_map_of_mem hbinder))
  · obtain ⟨hlead, hknown⟩ := hleads use huse
    unfold Core.Use.Leads at hlead
    unfold Core.Use.Known at hknown
    split <;> simp_all
  · simp only [(hleads use huse).1.target_iff, (hleads other hother).1.target_iff]
    constructor
    · rintro ⟨target, ⟨binder, hmem, hbinder, rfl⟩, binder', hmem', hbinder', hsame⟩
      exact ⟨binder, hbinder, List.inj_on_of_nodup_map hnodes hmem' hmem hsame ▸ hbinder'⟩
    · rintro ⟨binder, hbinder, hbinder'⟩
      have hmem := (hleads use huse).1
      unfold Core.Use.Leads at hmem
      rw [hbinder] at hmem
      exact ⟨_, ⟨binder, hmem.1, hbinder, rfl⟩, binder, hmem.1, hbinder', rfl⟩

/-- A text with names that are bound more than once, inside one another and side by side, and names
that are used before their bindings. -/
def shadowText : String :=
  "main = f 1 where \x7b x = f 2; f = \\y _ -> (let x = y in x) + x \x7d\n" ++
  "g f = \\x -> f (main + x)"

/-- The names that are used in it, and the nodes of their binders. -/
def shadowTargets : List (String × Option Core.NodeId) :=
  [("f", some 8), ("+", none), ("y", some 11), ("x", some 14), ("x", some 7), ("f", some 8),
    ("f", some 21), ("+", none), ("main", some 5), ("x", some 22)]

/-- Its binders have nodes of their own, though three are called `x` and two `f`, and all names lead
to them. -/
theorem shadowText_shares :
    ∃ tree m, parseSource shadowText = .ok tree ∧
      (lowerModule { preludeOperators := false } tree).1 = .ok m ∧
      ((moduleUses false tree).map fun use => (use.id.name, use.binder?.map (·.node))) =
        shadowTargets ∧
      ((moduleBinders false tree).map (·.node)).Nodup ∧
      ∀ use ∈ moduleUses false tree, ∀ binder, use.binder? = some binder →
        m.kind use.node = .indirection binder.node := by
  have hcheck : ((parseSource shadowText).toOption.bind fun tree =>
      (lowerModule { preludeOperators := false } tree).1.toOption.map fun _ =>
        (moduleUses false tree).map fun use => (use.id.name, use.binder?.map (·.node))) =
      some shadowTargets := by
    decide +kernel
  obtain ⟨tree, htree, hcheck⟩ := Option.bind_eq_some_iff.mp hcheck
  obtain ⟨m, hm, huses⟩ := Option.map_eq_some_iff.mp hcheck
  have htree := ok_of_toOption htree
  have hm := ok_of_toOption hm
  obtain ⟨⟨hnodes, _⟩, hleads, _⟩ := references_share_nodes htree hm
  refine ⟨tree, m, htree, hm, huses, hnodes, fun use huse binder hbinder => ?_⟩
  have hlead := hleads use huse
  rw [hbinder] at hlead
  exact hlead.2

end Lamina
