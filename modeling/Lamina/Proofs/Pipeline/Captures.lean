import Lamina.Proofs.Flat.Captures
import Lamina.Proofs.Pipeline.Stages

/-!
# Lambdas capture their free parameters

The captures of the lambdas of a text are found in rounds. Here they are set against paths in the
graph: a lambda captures a parameter if and only if some path leads from the lambda to the parameter
on which no lambda has the parameter as its own.
-/

namespace Lamina

namespace Flat

open Lamina.Core (NodeId NodeKind Module)

/-- A path from a node to a parameter. Each node on it owns the next one, or refers to it without
its being a top-level definition, and the parameter is one of no lambda on it. -/
structure FreePath (m : Module) (id x : NodeId) (path : List NodeId) : Prop where
  head : path.head? = some id
  last : path.getLast? = some x
  edges : path.IsChain fun node next => next ∈ followed m node
  free : ∀ node ∈ path, isLambda (m.kind node) = true → x ∉ m.params node

section

variable {m : Module} {id x next : NodeId}

theorem evaluated_subset_followed : evaluated m id ⊆ followed m id := by
  intro next hnext
  unfold evaluated at hnext
  unfold followed
  cases hkind : m.kind id <;> simp_all [NodeKind.children]

/-- An edge leads to the body of a lambda, or to what belongs to the evaluation of the node. -/
theorem followed_cases (h : next ∈ followed m id) :
    (∃ scope, m.kind id = .lambda scope next) ∨ next ∈ evaluated m id := by
  unfold followed at h
  unfold evaluated
  cases hkind : m.kind id <;> simp_all [NodeKind.children]

theorem FreePath.cons {path : List NodeId} (h : FreePath m next x path)
    (hedge : next ∈ followed m id) (hfree : isLambda (m.kind id) = true → x ∉ m.params id) :
    FreePath m id x (id :: path) where
  head := rfl
  last := by
    rw [List.getLast?_cons, h.last]
    rfl
  edges := by
    cases path with
    | nil => cases h.head
    | cons first rest =>
      obtain rfl : first = next := Option.some.inj h.head
      exact .cons_cons hedge h.edges
  free := List.forall_mem_cons.mpr ⟨hfree, h.free⟩

/-- A node mentions the parameters to which free paths lead. -/
theorem mentions_iff_freePath :
    Mentions m id x ↔ m.kind x = .placeholder ∧ ∃ path, FreePath m id x path := by
  constructor
  · intro h
    refine ⟨h.placeholder, ?_⟩
    induction h with
    | @here id hkind => exact ⟨[id], rfl, rfl, .singleton _, by simp [hkind, isLambda]⟩
    | @step id next x hnext _ ih =>
      obtain ⟨path, hpath⟩ := ih
      refine ⟨_, hpath.cons (evaluated_subset_followed hnext) fun hlambda => ?_⟩
      cases hkind : m.kind id <;> simp_all [evaluated, isLambda]
    | @lambda id scope body x hkind _ hown ih =>
      obtain ⟨path, hpath⟩ := ih
      exact ⟨_, hpath.cons (by simp [followed, hkind, NodeKind.children]) fun _ => hown⟩
  · rintro ⟨hparam, path, hpath⟩
    induction path generalizing id with
    | nil => cases hpath.head
    | cons node rest ih =>
      obtain ⟨hhead, hlast, hedges, hfree⟩ := hpath
      obtain rfl : node = id := Option.some.inj hhead
      cases rest with
      | nil =>
        obtain rfl : node = x := Option.some.inj hlast
        exact .here hparam
      | cons next rest =>
        obtain ⟨hedge, hedges⟩ := List.isChain_cons_cons.mp hedges
        have hrest : Mentions m next x := ih ⟨rfl, hlast, hedges, fun other hother =>
          hfree other (List.mem_cons_of_mem _ hother)⟩
        rcases followed_cases hedge with ⟨scope, hkind⟩ | hnext
        · exact .lambda hkind hrest (hfree node List.mem_cons_self (isLambda_of_kind hkind))
        · exact .step hnext hrest

/-- A round over captures that are stable changes nothing. -/
theorem captureRound_of_stable {lifted ids captures} (hkeys : captures.map (·.1) = lifted)
    (hids : ids ⊆ lifted) (h : captures.Stable m lifted) :
    captureRound m ids captures = (captures, false) := by
  induction ids with
  | nil => rfl
  | cons id rest ih =>
    obtain ⟨hid, hrest⟩ := List.cons_subset.mp hids
    have hlookup := Captures.lookup_of_mem (hkeys ▸ hid)
    rw [captureRound, if_pos (hlookup.trans (congrArg some (h id hid)))]
    exact ih hrest

end

end Flat

open Flat (FreePath captureRound captureRounds capturesOf planOf)

/-- **Captures are the free parameters.** The rounds that find the captures end before their bound
is reached, and one more would change nothing. There are captures for each collected lambda and for
no other. They are in ascending order, and a parameter is among them if and only if a path leads
from the lambda to it, over owned nodes and names of other things than definitions, on which no
lambda, the first one included, has it as its own parameter. -/
theorem captures_free_parameters {options : Core.LowerOptions} {source : String} {m : Core.Module}
    (direct : Bool) (hm : (lowerSource options source).result = .ok m) :
    let p := (planOf m direct).1
    (∀ more, captureRounds m p.lifted (p.lifted.length * m.graph.size + 2 + more) 0
        (p.lifted.map (·, [])) = capturesOf m p.lifted) ∧
      captureRound m p.lifted p.captures = (p.captures, false) ∧
      p.captures.map (·.1) = p.lifted ∧
      ∀ id ∈ p.lifted, (p.captures.of id).Pairwise (· < ·) ∧
        ∀ x, x ∈ p.captures.of id ↔ m.kind x = .placeholder ∧ ∃ path, FreePath m id x path := by
  obtain ⟨tree, htree, hm⟩ := lowerSource_ok hm
  have regular := Flat.regular_of_lowerModule (parseSource_formed htree) hm
  obtain ⟨hgrowing, hstable, hbound⟩ :=
    Flat.capturesOf_settles regular.shaped (Flat.liftedOf m (Flat.globalsOf m))
  refine ⟨hbound, Flat.captureRound_of_stable hgrowing.keys (List.Subset.refl _) hstable,
    hgrowing.keys, fun id hid => ⟨Flat.captures_ascending regular.shaped id, fun x => ?_⟩⟩
  rw [← Flat.mentions_iff_freePath]
  exact Flat.mem_captures_iff regular (List.mem_append_right _ hid)

/-- A text with two local functions that call each other and capture a parameter each, and a lambda
with a parameter that hides one of them. -/
def hidingText : String :=
  "f x y = let a = \\u -> b (u + x); b = \\v -> if v <= y then v else a v" ++
  " in \\w -> (\\x -> a x) w\n" ++
  "main = f 1 2 3"

/-- It takes five rounds to find that each of the four lambdas captures both parameters of the
function around them. The lambda that hides `x` captures the outer `x` by calling the local
functions, and its own `x` belongs to no other lambda. -/
theorem hidingText_captures :
    ∃ m, (lowerSource {} hidingText).result = .ok m ∧
      m.params 11 = [13, 14] ∧ m.params 41 = [37] ∧
      (planOf m true).1.captures =
        [(44, [13, 14]), (41, [13, 14]), (15, [13, 14]), (16, [13, 14])] ∧
      (capturesOf m (planOf m true).1.lifted).2 = 5 ∧
      (∃ path, FreePath m 41 13 path) ∧ ¬ ∃ path, FreePath m 44 37 path := by
  have hcheck : ((lowerSource {} hidingText).result.toOption.map fun m =>
      ((planOf m true).1.captures, (capturesOf m (planOf m true).1.lifted).2, m.params 11,
        m.params 41, m.kind 37)) =
      some ([(44, [13, 14]), (41, [13, 14]), (15, [13, 14]), (16, [13, 14])], 5, [13, 14], [37],
        .placeholder) := by
    decide +kernel
  obtain ⟨m, hm, hcheck⟩ := Option.map_eq_some_iff.mp hcheck
  obtain ⟨hcaptures, hcheck⟩ := Prod.mk.inj hcheck
  obtain ⟨hrounds, hcheck⟩ := Prod.mk.inj hcheck
  obtain ⟨houter, hcheck⟩ := Prod.mk.inj hcheck
  obtain ⟨hinner, hkind⟩ := Prod.mk.inj hcheck
  obtain ⟨_, _, hkeys, hfree⟩ := captures_free_parameters true (ok_of_toOption hm)
  rw [← hkeys, hcaptures] at hfree
  have hmem : (13 : Core.NodeId) ∈ Flat.Captures.of
      [(44, [13, 14]), (41, [13, 14]), (15, [13, 14]), (16, [13, 14])] 41 := by decide
  have hnot : (37 : Core.NodeId) ∉ Flat.Captures.of
      [(44, [13, 14]), (41, [13, 14]), (15, [13, 14]), (16, [13, 14])] 44 := by decide
  refine ⟨m, ok_of_toOption hm, houter, hinner, hcaptures, hrounds, ?_, fun hpath => hnot ?_⟩
  · exact (((hfree 41 (by decide)).2 13).mp hmem).2
  · exact ((hfree 44 (by decide)).2 37).mpr ⟨hkind, hpath⟩

end Lamina
