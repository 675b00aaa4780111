import Lamina.Proofs.Flat.Failure
import Lamina.Proofs.Lookup
import Lamina.Proofs.Pipeline.Stages

/-!
# When conversion fails

A lowered module fails to become a program for two reasons only, both of which are found in the
text: the definition to be run is missing, or a value depends on itself without a function in
between.
-/

namespace Lamina

open Flat (BoundsSuffice CodeRoot ConvertError Inlines Looped convert outlineOf planOf)
open Relation (ReflTransGen TransGen)

variable {m : Core.Module}

/-- Some code of a program leads to a binding that leads back to itself, without a function in
between. -/
structure SelfDependent (m : Core.Module) (history : Core.History) (value : Core.NodeId) :
    Prop where
  reached : ∃ root, CodeRoot m root ∧ ReflTransGen (Inlines m) root value
  binding : history.Reserves value
  again : TransGen (Inlines m) value value

theorem SelfDependent.of_looped {decls history} (wellFormed : m.WellFormed decls history)
    {root value} (hroot : CodeRoot m root) (h : Looped m root value) :
    SelfDependent m history value := by
  refine ⟨⟨root, hroot, h.reached⟩, ?_, h.again⟩
  obtain ⟨user, huser⟩ := h.named
  obtain ⟨next, hnext, _⟩ := TransGen.head'_iff.mp h.again
  -- a name leads to an intrinsic, a parameter or a binding, and the first two need nothing
  rcases wellFormed.target huser with ⟨_, op, hop⟩ | hparam | hreserves
  · cases hnext with
    | child _ hchild => simp [hop, Core.NodeKind.children] at hchild
    | reference hkind => simp [hop] at hkind
  · cases hnext with
    | child _ hchild => simp [hparam, Core.NodeKind.children] at hchild
    | reference hkind => simp [hparam] at hkind
  · exact hreserves

theorem definition?_eq_none_iff {name : String} :
    m.definition? name = none ↔ name ∉ m.definitions.map (·.1) :=
  lookup_eq_none_iff_not_mem

/-- Conversion fails as the outline does. -/
theorem convert_error_iff (shaped : m.Shaped) {direct e} :
    (convert direct m).1 = .error e ↔ outlineOf m = .error e := by
  rw [Flat.convert_eq shaped]
  cases outlineOf m with
  | error e' => simp [Except.map]
  | ok o => simp [Except.map]

/-- **Conversion fails exactly on missing entries and cyclic values.** The bounds on its loops are
never reached. It complains about a missing entry if and only if the entry is no definition; else it
yields a program or complains about a cyclic value, and the latter if and only if some code leads to
a binding that depends on itself. The message names such a binding. -/
theorem conversion_fails_exactly {source : String} {tree : Surface.Module}
    {options : Core.LowerOptions} {m : Core.Module} (direct : Bool)
    (htree : parseSource source = .ok tree) (hm : (Core.lowerModule options tree).1 = .ok m) :
    BoundsSuffice (planOf m direct).1 ∧
      (∀ name, (convert direct m).1 = .error (.missingEntry name) ↔
        name = options.entry ∧ options.entry ∉ m.definitions.map (·.1)) ∧
      (options.entry ∈ m.definitions.map (·.1) →
        ((∃ p, (convert direct m).1 = .ok p) ∨
          ∃ name, (convert direct m).1 = .error (.cyclicValue name)) ∧
        ((∃ name, (convert direct m).1 = .error (.cyclicValue name)) ↔
          ∃ value, SelfDependent m (Core.lowerHistory options tree) value) ∧
        ∀ name, (convert direct m).1 = .error (.cyclicValue name) →
          ∃ value, SelfDependent m (Core.lowerHistory options tree) value ∧
            name = m.label value) := by
  have hformed := parseSource_formed htree
  have regular := Flat.regular_of_lowerModule hformed hm
  obtain ⟨shaped, _, hentryName⟩ := Core.lowerModule_ok hformed hm
  have wellFormed := Core.wellFormed_of_lowerModule hformed hm
  refine ⟨Flat.boundsSuffice shaped, ?_⟩
  rw [← hentryName]
  simp only [convert_error_iff shaped]
  cases hentry : m.definition? m.entry with
  | none =>
    have hmissing := definition?_eq_none_iff.mp hentry
    refine ⟨fun name => ?_, fun hmem => absurd hmem hmissing⟩
    simp [outlineOf, hentry, hmissing, eq_comm]
  | some entry =>
    have hmem : m.entry ∈ m.definitions.map (·.1) := by
      by_contra hmissing
      rw [definition?_eq_none_iff.mpr hmissing] at hentry
      cases hentry
    -- whatever goes wrong is about a value that depends on itself
    have herror : ∀ e, outlineOf m = .error e → ∃ value,
        SelfDependent m (Core.lowerHistory options tree) value ∧
          e = .cyclicValue (m.label value) := by
      intro e he
      obtain ⟨root, value, hroot, hlooped, hmessage⟩ := Flat.outlineOf_error regular hentry he
      exact ⟨value, .of_looped wellFormed hroot hlooped, hmessage⟩
    refine ⟨fun name => ⟨fun he => ?_, fun h => absurd hmem h.2⟩, fun _ => ⟨?_, ⟨?_, ?_⟩, ?_⟩⟩
    · obtain ⟨value, _, hmessage⟩ := herror _ he
      cases hmessage
    · cases ho : outlineOf m with
      | ok o => exact .inl ⟨_, by rw [Flat.convert_eq shaped, ho]; rfl⟩
      | error e =>
        obtain ⟨value, _, rfl⟩ := herror e ho
        exact .inr ⟨_, rfl⟩
    · rintro ⟨name, he⟩
      obtain ⟨value, hvalue, _⟩ := herror _ he
      exact ⟨value, hvalue⟩
    · rintro ⟨value, ⟨root, hroot, hreached⟩, _, hagain⟩
      cases ho : outlineOf m with
      | ok o =>
        have hnone := ((Flat.outlineOf_ok_iff regular).mp ⟨o, ho⟩).2
        exact absurd ⟨root, value, hroot, hreached, hagain⟩ hnone
      | error e =>
        obtain ⟨value, _, rfl⟩ := herror e ho
        exact ⟨_, rfl⟩
    · intro name he
      obtain ⟨value, hvalue, hmessage⟩ := herror _ he
      cases hmessage
      exact ⟨value, hvalue, rfl⟩

/-- A text in which two values depend on each other, and a function that does so too. -/
def cyclicText : String :=
  "up x = if x == 0 then left else up (x - 1)
" ++
  "left = right + 1
" ++
  "right = if True then left else up 2
" ++
  "main = up 1"

/-- The text is lowered, and converting it fails for one of the two values. -/
theorem cyclicText_fails :
    ∃ tree m, parseSource cyclicText = .ok tree ∧ (Core.lowerModule {} tree).1 = .ok m ∧
      (convert true m).1 = .error (.cyclicValue "left") ∧
      ∃ value, SelfDependent m (Core.lowerHistory {} tree) value ∧ m.label value = "left" := by
  have hcheck : ((parseSource cyclicText).toOption.bind fun tree =>
      (Core.lowerModule {} tree).1.toOption.bind fun m =>
        match (convert true m).1 with
        | .error e => some (e, m.definitions.map (·.1))
        | .ok _ => none) = some (.cyclicValue "left", ["up", "left", "right", "main"]) := by
    decide +kernel
  obtain ⟨tree, htree, hcheck⟩ := Option.bind_eq_some_iff.mp hcheck
  obtain ⟨m, hm, hcheck⟩ := Option.bind_eq_some_iff.mp hcheck
  split at hcheck
  · rename_i e hfails
    obtain ⟨rfl, hnames⟩ := Prod.mk.inj (Option.some.inj hcheck)
    have hentry : "main" ∈ m.definitions.map (·.1) := by
      rw [hnames]
      simp
    obtain ⟨value, hvalue, hlabel⟩ := ((conversion_fails_exactly true (ok_of_toOption htree)
      (ok_of_toOption hm)).2.2 hentry).2.2 "left" hfails
    exact ⟨tree, m, ok_of_toOption htree, ok_of_toOption hm, hfails, value, hvalue, hlabel.symm⟩
  · cases hcheck

end Lamina
