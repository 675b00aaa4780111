import Lamina.Proofs.Core.Sites
import Lamina.Proofs.Core.State

/-!
# What lowering blames

Each site of a text has a rule. An action of lowering checks sites (`Checks`): if it succeeds, all
of them keep their rules and what the action promises holds; if it fails, the error is about one
that does not, as `Site.Blames` says.
-/

namespace Lamina.Core

open Lamina.Surface (Ident Expr Decl)

variable {options : LowerOptions}

/-! ## Rules and errors -/

/-- Something binds the name, or it is an operator that stands for an intrinsic. -/
def Use.Known (options : LowerOptions) (use : Use) : Prop :=
  use.binder?.isSome ∨ use.isOperator = true ∧ options.strict = false ∧
    (Intrinsic.ofSourceName? use.id.name).isSome

/-- A site is as lowering wants it. -/
def Site.Lawful (options : LowerOptions) : Site → Prop
  | .block decls _ => Bindable decls
  | .parameters params _ => ((params.map (·.name)).filter (· ≠ "_")).Nodup
  | .refused _ => False
  | .use occurrence => occurrence.Known options

/-- An error is about a site. -/
inductive Site.Blames (options : LowerOptions) : Site → LowerError → Prop
  | unsupported {decls region what span} (h : .unsupported what span ∈ decls) :
      Blames options (.block decls region) (.unsupported what.text span)
  | boundTwice {before after decl id region} (hid : decl.bound? = some id)
      (h : id.name ∈ declNames before) :
      Blames options (.block (before ++ decl :: after) region)
        (.duplicateDefinition id.name id.span)
  | paramTwice {before after param region} (hname : param.name ≠ "_")
      (h : param.name ∈ before.map (·.name)) :
      Blames options (.parameters (before ++ param :: after) region)
        (.duplicateDefinition param.name param.span)
  | refused {e} : Blames options (.refused e) (.unsupported e.describe e.span)
  /-- The names that come with the error are all that are visible, the innermost first. -/
  | unresolved {use} (hunknown : ¬ use.Known options)
      (hmissing : use.snapshot.contains use.id.name = false)
      (hlists : ∀ region ∈ use.regions, (region.binders.map (·.name)).Sublist region.names) :
      Blames options (.use use) (.unresolved use.id.name use.snapshot use.id.span)

/-- Only a site that breaks its rule is blamed. -/
theorem Site.Blames.not_lawful {site : Site} {error : LowerError} (h : site.Blames options error) :
    ¬ site.Lawful options := by
  have hrepeated : ∀ {names rest : List String} {name : String}, name ∈ names →
      ¬ (names ++ name :: rest).Nodup := by
    intro names rest name hname hnodup
    exact (List.nodup_cons.mp (List.nodup_middle.mp hnodup)).1 (List.mem_append_left _ hname)
  cases h with
  | unsupported h => exact fun hlawful => hlawful.2 _ h
  | @boundTwice before after decl id region hid h =>
    intro hlawful
    have hnodup := hlawful.1
    rw [declNames_append] at hnodup
    exact hrepeated h (by simpa [declNames, hid] using hnodup)
  | @paramTwice before after param region hname h =>
    intro hlawful
    have hmem : param.name ∈ (before.map (·.name)).filter (· ≠ "_") :=
      List.mem_filter.mpr ⟨h, decide_eq_true hname⟩
    exact hrepeated hmem (by simpa [Site.Lawful, hname] using hlawful)
  | refused => exact id
  | unresolved hunknown => exact hunknown

namespace Lowering

/-! ## Actions that check sites -/

/-- An action has an answer only if the sites keep their rules, and then the answer and the state
are as promised. An error is about one of the sites. -/
def Checks {α : Type} (options : LowerOptions) (sites : List Site) (x : LowerM α) (st : LowerState)
    (Q : α → LowerState → Prop) : Prop :=
  match x st with
  | (.ok a, st') => (∀ site ∈ sites, site.Lawful options) ∧ Q a st'
  | (.error e, _) => ∃ site ∈ sites, site.Blames options e

section

variable {α β : Type} {sites sites' : List Site} {site : Site} {x : LowerM α} {f : α → LowerM β}
  {st st' : LowerState} {a : α} {Q Q' : α → LowerState → Prop} {S : β → LowerState → Prop}

theorem run_bind_of_ok (h : x st = (.ok a, st')) : (x >>= f) st = f a st' := by
  simp only [Bind.bind, ExceptT.bind, ExceptT.mk, StateT.bind, h]
  rfl

theorem run_bind_of_error {e} (h : x st = (.error e, st')) : (x >>= f) st = (.error e, st') := by
  simp only [Bind.bind, ExceptT.bind, ExceptT.mk, StateT.bind, h]
  rfl

namespace Checks

theorem of_ok (h : x st = (.ok a, st')) (hsites : ∀ site ∈ sites, site.Lawful options)
    (hQ : Q a st') : Checks options sites x st Q := by
  rw [Checks, h]
  exact ⟨hsites, hQ⟩

theorem of_error {e : LowerError} (h : x st = (.error e, st')) (hsite : site ∈ sites)
    (hblames : site.Blames options e) : Checks options sites x st Q := by
  rw [Checks, h]
  exact ⟨site, hsite, hblames⟩

theorem bind (hx : Checks options sites x st Q)
    (hf : ∀ a st', Q a st' → Checks options sites' (f a) st' S) :
    Checks options (sites ++ sites') (x >>= f) st S := by
  unfold Checks at hx
  rcases hrun : x st with ⟨e | a, st'⟩ <;> rw [hrun] at hx
  · obtain ⟨site, hsite, hblames⟩ := hx
    exact .of_error (run_bind_of_error hrun) (List.mem_append_left _ hsite) hblames
  · have hrest := hf a st' hx.2
    unfold Checks at hrest ⊢
    rw [run_bind_of_ok hrun]
    rcases hrun' : f a st' with ⟨e | b, last⟩ <;> rw [hrun'] at hrest
    · obtain ⟨site, hsite, hblames⟩ := hrest
      exact ⟨site, List.mem_append_right _ hsite, hblames⟩
    · exact ⟨List.forall_mem_append.mpr ⟨hx.1, hrest.1⟩, hrest.2⟩

/-- An action that succeeds, and another one after it. -/
theorem bind_of_ok (h : x st = (.ok a, st')) (hf : Checks options sites (f a) st' S) :
    Checks options sites (x >>= f) st S := by
  rwa [Checks, run_bind_of_ok h]

/-- An action, and then one that always succeeds. -/
theorem and_then (hx : Checks options sites x st Q)
    (hf : ∀ a st', Q a st' → ∃ b last, f a st' = (.ok b, last) ∧ S b last) :
    Checks options sites (x >>= f) st S := by
  have hrest (a : α) (st' : LowerState) (hQ : Q a st') : Checks options [] (f a) st' S := by
    obtain ⟨b, last, hrun, hS⟩ := hf a st' hQ
    exact .of_ok hrun (List.forall_mem_nil _) hS
  have hall := hx.bind hrest
  rwa [List.append_nil] at hall

theorem imp (hx : Checks options sites x st Q) (himp : ∀ a st', Q a st' → Q' a st') :
    Checks options sites x st Q' := by
  unfold Checks at hx ⊢
  split at hx
  · exact ⟨hx.1, himp _ _ hx.2⟩
  · exact hx

/-- A name has to be new in its scope. -/
theorem fresh {f scope id} (hbound : id.name ∈ (st.scopes.bindings scope).map (·.1) →
      site.Blames options (.duplicateDefinition id.name id.span))
    (hnew : id.name ∉ (st.scopes.bindings scope).map (·.1) → Checks options [site] (f ()) st S) :
    Checks options [site] (requireFresh scope id >>= f) st S := by
  cases hlookup : st.scopes.lookupLocal scope id.name with
  | some node =>
    have hrun : requireFresh scope id st =
        (.error (.duplicateDefinition id.name id.span), st) := by
      rw [requireFresh, run_bind_of_ok (x := get) rfl, hlookup]
      rfl
    exact .of_error (run_bind_of_error hrun) (List.mem_singleton_self _)
      (hbound (List.mem_map_of_mem (mem_of_lookup hlookup)))
  | none =>
    have hrun : requireFresh scope id st = (.ok (), st) := by
      rw [requireFresh, run_bind_of_ok (x := get) rfl, hlookup]
      rfl
    exact .bind_of_ok hrun (hnew (lookup_eq_none_iff_not_mem.mp hlookup))

end Checks

end

end Lowering

end Lamina.Core
