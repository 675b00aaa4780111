import Mathlib.Algebra.Order.BigOperators.Group.List
import Mathlib.Algebra.Order.Ring.Nat
import Lamina.Proofs.Core.Reach
import Lamina.Proofs.Flat.Discovery
import Lamina.Proofs.Flat.Free

/-!
# What lambdas capture

Captures are found in rounds. Each round only adds to what the lambdas capture, and never more than
what they mention, so the rounds end within their bound with captures that one more round would not
change (`captureRounds_settles`). Then a lambda captures just what it mentions (`mem_captures_iff`).
-/

namespace Lamina.Flat

open Lamina.Core (NodeId NodeKind Module)

variable {m : Module}

/-! ## One lambda's captures -/

/-- The captures with those of one lambda replaced. -/
def Captures.set (captures : Captures) (id : NodeId) (now : List NodeId) : Captures :=
  captures.map fun (node, old) => if node == id then (node, now) else (node, old)

namespace Captures

variable {id : NodeId} {captures : Captures}

theorem keys_set (captures : Captures) (id : NodeId) (now : List NodeId) :
    (captures.set id now).map (·.1) = captures.map (·.1) := by
  unfold set
  rw [List.map_map]
  apply List.map_congr_left
  rintro ⟨node, old⟩ -
  simp only [Function.comp_apply]
  split <;> rfl

theorem of_set_self (h : id ∈ captures.map (·.1)) (now : List NodeId) :
    (captures.set id now).of id = now := by
  induction captures with
  | nil => cases h
  | cons entry rest ih =>
    obtain ⟨node, old⟩ := entry
    by_cases heq : node = id
    · simp [set, of, heq]
    · have hrest : id ∈ rest.map (·.1) := by simpa [Ne.symm heq] using h
      have hne : (id == node) = false := by simpa using Ne.symm heq
      have := ih hrest
      simpa [set, of, heq, List.lookup_cons, hne] using this

theorem of_set_of_ne (captures : Captures) {node : NodeId} (h : node ≠ id) (now : List NodeId) :
    (captures.set id now).of node = captures.of node := by
  induction captures with
  | nil => rfl
  | cons entry rest ih =>
    obtain ⟨key, old⟩ := entry
    by_cases hkey : node = key
    · subst hkey
      simp [set, of, h]
    · have hne : (node == key) = false := by simpa using hkey
      have hfirst : (if (key == id) = true then (key, now) else (key, old)).1 = key := by
        split <;> rfl
      unfold set of at ih ⊢
      rw [List.map_cons, List.lookup_cons, List.lookup_cons, hfirst, hne]
      exact ih

theorem lookup_of_mem (h : id ∈ captures.map (·.1)) :
    captures.lookup id = some (captures.of id) := by
  unfold of
  cases hlookup : captures.lookup id with
  | some nodes => rfl
  | none => exact absurd h (lookup_eq_none_iff_not_mem.mp hlookup)

end Captures

/-! ## What a body mentions -/

section

variable {m : Module} {captures more : Captures} {id scope body x : NodeId}

theorem evaluated_lt (shaped : m.Shaped) {next : NodeId} (h : next ∈ evaluated m id) :
    next < m.graph.size := by
  unfold evaluated at h
  split at h
  · rename_i hkind
    exact shaped.child_lt (by rw [hkind]; exact h)
  · rename_i hkind
    exact shaped.child_lt (by rw [hkind]; exact h)
  · rename_i target hkind
    split at h
    · cases h
    · obtain rfl := List.mem_singleton.mp h
      exact shaped.target_lt hkind
  · cases h

/-- A round gives a lambda the parameters below its body that are not its own, and the captures of
the lambdas there. -/
theorem mem_mentioned_iff (shaped : m.Shaped) (hkind : m.kind id = .lambda scope body) :
    x ∈ mentioned m captures id ↔ x < m.graph.size ∧ x ∉ m.params id ∧
      ∃ node, Leads m body node ∧ ((m.kind node = .placeholder ∧ x = node) ∨
        (∃ scope body, m.kind node = .lambda scope body) ∧ x ∈ captures.of node) := by
  have hbody : ∀ start ∈ [body], start < m.graph.size := by
    intro start hstart
    have hchild : start ∈ (m.kind id).children := by
      simpa [hkind, NodeKind.children] using hstart
    exact shaped.child_lt hchild
  have hreach : ∀ node, node ∈ Core.reachable (evaluated m) m.graph.size [body] ↔
      Leads m body node := by
    intro node
    rw [Core.mem_reachable_iff (fun h => evaluated_lt shaped h) hbody]
    simp
  simp only [mentioned, hkind, List.mem_filter, List.mem_range, Bool.and_eq_true,
    List.contains_iff_mem, List.mem_flatMap, Bool.not_eq_true', hreach]
  refine and_congr_right fun _ => ?_
  rw [and_comm, ← Bool.not_eq_true, List.contains_iff_mem]
  refine and_congr_right fun _ => exists_congr fun node => and_congr_right fun _ => ?_
  cases m.kind node <;> simp

theorem mentioned_mono (shaped : m.Shaped) (h : ∀ node, captures.of node ⊆ more.of node)
    (id : NodeId) : mentioned m captures id ⊆ mentioned m more id := by
  intro x hx
  cases hkind : m.kind id with
  | lambda scope body =>
    rw [mem_mentioned_iff shaped hkind] at hx ⊢
    obtain ⟨hlt, hown, node, hleads, hnode⟩ := hx
    exact ⟨hlt, hown, node, hleads, hnode.imp_right (And.imp_right fun hx => h node hx)⟩
  | _ => simp [mentioned, hkind] at hx

theorem Mentions.lt_size (h : Mentions m id x) : x < m.graph.size := by
  apply Core.Graph.lt_size_of_kind
  rw [show m.graph.kind x = .placeholder from h.placeholder]
  nofun

theorem Mentions.of_leads {node : NodeId} (hleads : Leads m id node) (h : Mentions m node x) :
    Mentions m id x := by
  induction hleads using Relation.ReflTransGen.head_induction_on with
  | refl => exact h
  | head hnext _ ih => exact .step hnext ih

/-- A round gives a lambda nothing but what it mentions. -/
theorem mentions_of_mentioned (shaped : m.Shaped)
    (hsound : ∀ node x, x ∈ captures.of node → Mentions m node x)
    (h : x ∈ mentioned m captures id) : Mentions m id x := by
  cases hkind : m.kind id with
  | lambda scope body =>
    obtain ⟨_, hown, node, hleads, hnode⟩ := (mem_mentioned_iff shaped hkind).mp h
    refine .lambda hkind (.of_leads hleads ?_) hown
    rcases hnode with ⟨hparam, rfl⟩ | ⟨_, hcaptured⟩
    · exact .here hparam
    · exact hsound node x hcaptured
  | _ => simp [mentioned, hkind] at h

theorem mentioned_filter (m : Module) (captures : Captures) (id : NodeId) :
    ∃ keep : NodeId → Bool, mentioned m captures id = (List.range m.graph.size).filter keep := by
  unfold mentioned
  split
  · exact ⟨_, rfl⟩
  · exact ⟨fun _ => false, by simp⟩

end

/-! ## Rounds -/

/-- What holds of the captures between the steps of a round. -/
structure Captures.Growing (m : Module) (lifted : List NodeId) (captures : Captures) : Prop where
  keys : captures.map (·.1) = lifted
  /-- Computing the captures of a lambda anew takes none away. -/
  grows : ∀ id ∈ lifted, captures.of id ⊆ mentioned m captures id
  mentions : ∀ id x, x ∈ captures.of id → Mentions m id x
  ordered : ∀ id, ∃ keep : NodeId → Bool, captures.of id = (List.range m.graph.size).filter keep

/-- How many captures there are in all. -/
def Captures.total (captures : Captures) (lifted : List NodeId) : Nat :=
  (lifted.map fun id => (captures.of id).length).sum

namespace Captures.Growing

variable {m : Module} {lifted : List NodeId} {captures more : Captures} {id : NodeId}

theorem length_of_le (h : captures.Growing m lifted) (id : NodeId) :
    (captures.of id).length ≤ m.graph.size := by
  obtain ⟨keep, heq⟩ := h.ordered id
  rw [heq]
  simpa using List.length_filter_le keep (List.range m.graph.size)

theorem total_le (h : captures.Growing m lifted) :
    captures.total lifted ≤ lifted.length * m.graph.size := by
  have hsum := List.sum_le_card_nsmul (lifted.map fun id => (captures.of id).length) m.graph.size
    (by simpa using fun id _ => h.length_of_le id)
  simpa [Captures.total] using hsum

/-- The captures of a lambda are computed anew. -/
theorem set (h : captures.Growing m lifted) (shaped : m.Shaped) (hid : id ∈ lifted) :
    (captures.set id (mentioned m captures id)).Growing m lifted ∧
      ∀ node, captures.of node ⊆ (captures.set id (mentioned m captures id)).of node := by
  have hself := Captures.of_set_self (h.keys ▸ hid) (mentioned m captures id)
  have hother := fun node (hne : node ≠ id) =>
    captures.of_set_of_ne hne (mentioned m captures id)
  have hle : ∀ node, captures.of node ⊆ (captures.set id (mentioned m captures id)).of node := by
    intro node
    by_cases heq : node = id
    · rw [heq, hself]
      exact h.grows id hid
    · rw [hother node heq]
      exact List.Subset.refl _
  refine ⟨⟨(captures.keys_set id _).trans h.keys, ?_, ?_, ?_⟩, hle⟩
  · intro node hnode
    refine List.Subset.trans ?_ (mentioned_mono shaped hle node)
    by_cases heq : node = id
    · rw [heq, hself]
      exact List.Subset.refl _
    · rw [hother node heq]
      exact h.grows node hnode
  · intro node x hx
    by_cases heq : node = id
    · rw [heq, hself] at hx
      exact heq ▸ mentions_of_mentioned shaped h.mentions hx
    · exact h.mentions node x (hother node heq ▸ hx)
  · intro node
    by_cases heq : node = id
    · rw [heq, hself]
      exact mentioned_filter m captures id
    · rw [hother node heq]
      exact h.ordered node

/-- Captures that grow and change are more. -/
theorem length_lt (h : captures.Growing m lifted) (h' : more.Growing m lifted)
    (hle : captures.of id ⊆ more.of id) (hne : captures.of id ≠ more.of id) :
    (captures.of id).length < (more.of id).length := by
  obtain ⟨keep, heq⟩ := h.ordered id
  obtain ⟨keep', heq'⟩ := h'.ordered id
  -- both are picked from the same list in order, so the one is a part of the other
  have hsub : (captures.of id).Sublist (more.of id) := by
    rw [heq, heq']
    rw [show (List.range m.graph.size).filter keep =
      ((List.range m.graph.size).filter keep').filter keep from ?_]
    · exact List.filter_sublist
    · rw [List.filter_filter]
      refine List.filter_congr fun x hx => ?_
      by_cases hkeep : keep x = true
      · have hmem : x ∈ more.of id := hle (by rw [heq]; exact List.mem_filter.mpr ⟨hx, hkeep⟩)
        rw [heq'] at hmem
        simp [hkeep, (List.mem_filter.mp hmem).2]
      · simp [hkeep]
  exact Nat.lt_of_le_of_ne hsub.length_le fun hlen => hne (hsub.eq_of_length hlen)

theorem length_le (h : captures.Growing m lifted) (h' : more.Growing m lifted)
    (hle : captures.of id ⊆ more.of id) : (captures.of id).length ≤ (more.of id).length := by
  by_cases heq : captures.of id = more.of id
  · exact Nat.le_of_eq (congrArg List.length heq)
  · exact Nat.le_of_lt (h.length_lt h' hle heq)

theorem total_mono (h : captures.Growing m lifted) (h' : more.Growing m lifted)
    (hle : ∀ node, captures.of node ⊆ more.of node) : captures.total lifted ≤ more.total lifted :=
  List.sum_le_sum fun node _ => h.length_le h' (hle node)

theorem total_lt (h : captures.Growing m lifted) (h' : more.Growing m lifted)
    (hle : ∀ node, captures.of node ⊆ more.of node) (hid : id ∈ lifted)
    (hne : captures.of id ≠ more.of id) : captures.total lifted < more.total lifted :=
  List.sum_lt_sum _ _ (fun node _ => h.length_le h' (hle node))
    ⟨id, hid, h.length_lt h' (hle id) hne⟩

end Captures.Growing

/-- No lambda would capture anything else if its captures were computed anew. -/
def Captures.Stable (m : Module) (lifted : List NodeId) (captures : Captures) : Prop :=
  ∀ id ∈ lifted, captures.of id = mentioned m captures id

section

variable {m : Module} {lifted : List NodeId} {captures : Captures}

/-- A round over some of the lambdas: it tells that something changed only if the captures are more,
and that nothing changed only if nothing would. -/
theorem captureRound_growing (shaped : m.Shaped) {ids} (hids : ids ⊆ lifted)
    (h : captures.Growing m lifted) :
    (captureRound m ids captures).1.Growing m lifted ∧
      (∀ node, captures.of node ⊆ (captureRound m ids captures).1.of node) ∧
      ((captureRound m ids captures).2 = true →
        captures.total lifted < (captureRound m ids captures).1.total lifted) ∧
      ((captureRound m ids captures).2 = false →
        (captureRound m ids captures).1 = captures ∧ captures.Stable m ids) := by
  induction ids generalizing captures with
  | nil => exact ⟨h, fun _ => List.Subset.refl _, nofun, fun _ => ⟨rfl, by simp [Captures.Stable]⟩⟩
  | cons id rest ih =>
    obtain ⟨hid, hrest⟩ := List.cons_subset.mp hids
    have hlookup := Captures.lookup_of_mem (h.keys ▸ hid)
    by_cases hsame : captures.of id = mentioned m captures id
    · have hround : captureRound m (id :: rest) captures = captureRound m rest captures := by
        rw [captureRound, if_pos (hlookup.trans (congrArg some hsame))]
      rw [hround]
      obtain ⟨hgrowing, hle, hchanged, hunchanged⟩ := ih hrest h
      refine ⟨hgrowing, hle, hchanged, fun hfalse => ?_⟩
      obtain ⟨heq, hstable⟩ := hunchanged hfalse
      exact ⟨heq, List.forall_mem_cons.mpr ⟨hsame, hstable⟩⟩
    · have hround : captureRound m (id :: rest) captures =
          ((captureRound m rest (captures.set id (mentioned m captures id))).1, true) := by
        rw [captureRound, if_neg fun heq => hsame (Option.some.inj (hlookup.symm.trans heq))]
        rfl
      rw [hround]
      obtain ⟨hset, hle⟩ := h.set shaped hid
      obtain ⟨hgrowing, hle', _, _⟩ := ih hrest hset
      have hle'' := fun node => List.Subset.trans (hle node) (hle' node)
      refine ⟨hgrowing, hle'', fun _ => ?_, nofun⟩
      -- the lambda gains something now, and nothing is lost in the rest of the round
      have hself := Captures.of_set_self (h.keys ▸ hid) (mentioned m captures id)
      have hgain : captures.of id ≠ (captures.set id (mentioned m captures id)).of id := by
        rw [hself]
        exact hsame
      exact Nat.lt_of_lt_of_le (h.total_lt hset hle hid hgain) (hset.total_mono hgrowing hle')

/-- Rounds that have enough of their bound left end with captures that are stable, and a larger
bound changes nothing. -/
theorem captureRounds_settles (shaped : m.Shaped) {fuel : Nat} (round : Nat)
    (h : captures.Growing m lifted)
    (hfuel : lifted.length * m.graph.size < captures.total lifted + fuel) :
    (captureRounds m lifted fuel round captures).1.Growing m lifted ∧
      (captureRounds m lifted fuel round captures).1.Stable m lifted ∧
      ∀ more, captureRounds m lifted (fuel + more) round captures =
        captureRounds m lifted fuel round captures := by
  induction fuel generalizing round captures with
  | zero =>
    have := h.total_le
    omega
  | succ fuel ih =>
    obtain ⟨hgrowing, _, hchanged, hunchanged⟩ :=
      captureRound_growing shaped (List.Subset.refl lifted) h
    have hunfold : ∀ bound, captureRounds m lifted (bound + 1) round captures =
        if (captureRound m lifted captures).2 = true then
          captureRounds m lifted bound (round + 1) (captureRound m lifted captures).1
        else ((captureRound m lifted captures).1, round + 1) := fun _ => rfl
    have hmore : ∀ more, fuel + 1 + more = fuel + more + 1 := fun more => by omega
    simp only [hmore, hunfold]
    by_cases hround : (captureRound m lifted captures).2 = true
    · have hlt := hchanged hround
      simp only [if_pos hround]
      exact ih (round + 1) hgrowing (by omega)
    · obtain ⟨heq, hstable⟩ := hunchanged (Bool.not_eq_true _ ▸ hround)
      simp only [if_neg hround]
      refine ⟨hgrowing, ?_, fun _ => trivial⟩
      rw [heq]
      exact hstable

end

theorem growing_initial (m : Module) (lifted : List NodeId) :
    Captures.Growing m lifted (lifted.map (·, [])) := by
  have hnone : ∀ id, Captures.of (lifted.map (·, [])) id = [] := by
    intro id
    unfold Captures.of
    cases hlookup : (lifted.map fun id => (id, ([] : List NodeId))).lookup id with
    | none => rfl
    | some nodes =>
      obtain ⟨_, _, hentry⟩ := List.mem_map.mp (mem_of_lookup hlookup)
      exact (Prod.mk.inj hentry).2.symm
  refine ⟨?_, ?_, ?_, ?_⟩
  · rw [List.map_map]
    exact List.map_id lifted
  · intro id _
    rw [hnone id]
    exact List.nil_subset _
  · intro id x hx
    rw [hnone id] at hx
    cases hx
  · intro id
    exact ⟨fun _ => false, by simp [hnone id]⟩

/-- The captures of a module are stable, and the bound on the rounds is never reached. -/
theorem capturesOf_settles (shaped : m.Shaped) (lifted : List NodeId) :
    (capturesOf m lifted).1.Growing m lifted ∧ (capturesOf m lifted).1.Stable m lifted ∧
      ∀ more, captureRounds m lifted (lifted.length * m.graph.size + 2 + more) 0
        (lifted.map (·, [])) = capturesOf m lifted :=
  captureRounds_settles shaped 0 (growing_initial m lifted) (by omega)

theorem captures_ascending (shaped : m.Shaped) (id : NodeId) :
    ((planOf m false).1.captures.of id).Pairwise (· < ·) := by
  obtain ⟨keep, heq⟩ := (capturesOf_settles shaped (liftedOf m (globalsOf m))).1.ordered id
  rw [show (planOf m false).1.captures.of id = _ from heq]
  exact List.pairwise_lt_range.filter keep

/-! ## A lambda captures what it mentions -/

section

variable {m : Module} {id x : NodeId}

theorem Regular.closed (regular : Regular m) (hdefinition : m.isDefinition id = true) :
    ¬ Mentions m id x := by
  obtain ⟨_, _, hlowered⟩ := regular.lowered
  exact definition_closed hlowered hdefinition x

/-- A parameter below the body of a lifted lambda, through lambdas that have it not as their own, is
captured or belongs to the lambda. -/
theorem captured_of_mentions (regular : Regular m) {captures : Captures}
    (hstable : captures.Stable m (liftedOf m (globalsOf m))) {node} (h : Mentions m node x)
    {scope body} (hid : id ∈ liftedOf m (globalsOf m)) (hkind : m.kind id = .lambda scope body)
    (hleads : Leads m body node) (hown : x ∉ m.params id) : x ∈ captures.of id := by
  induction h generalizing id scope body with
  | here hparam =>
    rw [hstable id hid, mem_mentioned_iff regular.shaped hkind]
    exact ⟨(Mentions.here hparam).lt_size, hown, _, hleads, .inl ⟨hparam, rfl⟩⟩
  | step hnext _ ih => exact ih hid hkind (hleads.tail hnext) hown
  | @lambda node scope' body' x hkind' hmention hown' ih =>
    have hsize : x < m.graph.size := hmention.lt_size
    have hbody : Reached m body := ((mem_liftedOf_iff regular).mp hid).2.followed
      (by simp [followed, hkind, NodeKind.children])
    -- a definition mentions nothing, so the lambda on the way is one that is lifted
    rcases List.mem_append.mp (mem_nodes_of_leads regular hbody hleads hkind') with hglobal | hlifted
    · exact absurd (.lambda hkind' hmention hown') (regular.closed (mem_globals_iff.mp hglobal).1)
    · have hcaptured := ih hlifted hkind' .refl hown'
      rw [hstable id hid, mem_mentioned_iff regular.shaped hkind]
      exact ⟨hsize, hown, node, hleads, .inr ⟨⟨_, _, hkind'⟩, hcaptured⟩⟩

/-- A function captures just what it mentions. -/
theorem mem_captures_iff (regular : Regular m) (hid : id ∈ (planOf m false).1.nodes) :
    x ∈ (planOf m false).1.captures.of id ↔ Mentions m id x := by
  obtain ⟨hgrowing, hstable, _⟩ := capturesOf_settles regular.shaped (liftedOf m (globalsOf m))
  constructor
  · exact hgrowing.mentions id x
  · intro hmention
    have hlambda := ((mem_nodes_iff_reached regular).mp hid).1
    rcases List.mem_append.mp hid with hglobal | hlifted
    · exact absurd hmention (regular.closed (mem_globals_iff.mp hglobal).1)
    · cases hmention with
      | here hparam => simp [hparam, isLambda] at hlambda
      | step hnext => simp [(mem_evaluated_iff.mp hnext).1] at hlambda
      | lambda hkind hbody hown =>
        exact captured_of_mentions regular hstable hbody hlifted hkind .refl hown

end

end Lamina.Flat
