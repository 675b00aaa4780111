import Lamina.Proofs.Native.Represents

/-!
# Applying closures, one argument at a time

A closure waits for as many arguments as its code takes. Until then each application makes a new
closure, and the last one calls the code. On the machine a closure is a value; in a native program
it is a cell with an array, which is copied before the argument is written. Both do the same, and as
cells that exist are never written to, closures that share their first arguments do not disturb one
another (`application_saturates_once`).
-/

namespace Lamina.Native

open Lamina.Flat (Callee maxArity)
open Lamina.Machine (Value RunError)

variable {w w' : World Callee} {p arg : Address} {callee : Callee} {arity : Nat}
  {supplied : List Address} {call : Callee → List Address → CodeM Address}

/-! ## Cells that wait for arguments -/

/-- The cell at an address is a closure that has been applied to the arguments `supplied`. -/
def Waits (w : World Callee) (p : Address) (callee : Callee) (arity : Nat)
    (supplied : List Address) : Prop :=
  ∃ slots : Array (Option Address), slots.size = arity ∧
    slots.toList.take supplied.length = supplied.map some ∧
    w.cells[p]? = some (.closure callee arity supplied.length slots)

/-- Cells were added, and nothing was printed. -/
structure World.Grows (w w' : World Callee) : Prop where
  keeps : w.Extends w'
  stdout : w'.stdout = w.stdout

theorem World.Grows.refl (w : World Callee) : w.Grows w := ⟨.refl w, rfl⟩

theorem World.Grows.trans {w''} (h : w.Grows w') (h' : w'.Grows w'') : w.Grows w'' :=
  ⟨h.keeps.trans h'.keeps, h'.stdout.trans h.stdout⟩

theorem suppliedArgs_map_some (args : List Address) :
    suppliedArgs (args.map some) = (pure args : CodeM (List Address)) := by
  induction args with
  | nil => rfl
  | cons arg rest ih =>
    show (do return arg :: (← suppliedArgs (rest.map some))) = _
    rw [ih, pure_bind]

theorem modify_push {α : Type} (cells : Array α) (cell : α) (f : α → α) :
    (cells.push cell).modify cells.size f = cells.push (f cell) := by
  apply Array.ext_getElem?
  intro i
  grind

namespace Waits

/-- The closure needs more arguments: the answer is a copy that has this one too. -/
theorem apply_more (h : Waits w p callee arity supplied) (hmore : supplied.length + 1 < arity)
    (call : Callee → List Address → CodeM Address) (arg : Address) :
    ∃ w', apply call p arg w = (.ok w.cells.size, w') ∧ w.Grows w' ∧
      Waits w' w.cells.size callee arity (supplied ++ [arg]) := by
  obtain ⟨slots, hsize, htake, hcell⟩ := h
  have hmore' : (supplied.length : Int) + 1 < arity := by omega
  refine ⟨⟨w.cells.push (.closure callee arity (supplied.length + 1)
    (slots.setIfInBounds supplied.length (some arg))), w.stdout⟩, ?_, ⟨.push w _, rfl⟩, ?_⟩
  · rw [apply, CodeM.bind_apply, load_of_cell hcell]
    simp only [if_pos hmore']
    exact congrArg (fun cells => (Except.ok w.cells.size, World.mk cells w.stdout))
      (modify_push w.cells _ _)
  · refine ⟨slots.setIfInBounds supplied.length (some arg), by simpa using hsize, ?_, ?_⟩
    · have hroom : supplied.length < slots.toList.length := by
        simpa [hsize] using Nat.lt_of_succ_lt hmore
      rw [List.length_append, List.length_singleton, Array.toList_setIfInBounds, List.map_append,
        ← htake, List.take_add_one, List.getElem?_set_self hroom,
        List.take_set_of_le (Nat.le_refl _)]
      rfl
    · rw [List.length_append, List.length_singleton]
      exact Array.getElem?_push_size

/-- The closure gets its last argument: the code is called with all of them. -/
theorem apply_last (h : Waits w p callee arity supplied) (hlast : arity ≤ supplied.length + 1)
    (hmax : ¬(arity = 0 ∨ maxArity < arity)) (call : Callee → List Address → CodeM Address)
    (arg : Address) : apply call p arg w = call callee (supplied ++ [arg]) w := by
  obtain ⟨slots, hsize, htake, hcell⟩ := h
  have hlast' : ¬(supplied.length : Int) + 1 < arity := by omega
  have hmax' : ¬((arity : Int) < 1 ∨ (maxArity : Int) < arity) := by omega
  rw [apply, CodeM.bind_apply, load_of_cell hcell]
  simp only [if_neg hlast', if_neg hmax', htake, suppliedArgs_map_some, pure_bind]

/-- Code that takes no argument or too many cannot be called. -/
theorem apply_refused (h : Waits w p callee arity supplied) (hlast : arity ≤ supplied.length + 1)
    (hmax : arity = 0 ∨ maxArity < arity) (call : Callee → List Address → CodeM Address)
    (arg : Address) : apply call p arg w = (.error (.unsupportedArity arity), w) := by
  obtain ⟨slots, hsize, htake, hcell⟩ := h
  have hlast' : ¬(supplied.length : Int) + 1 < arity := by omega
  have hmax' : (arity : Int) < 1 ∨ (maxArity : Int) < arity := by omega
  rw [apply, CodeM.bind_apply, load_of_cell hcell]
  simp only [if_neg hlast', if_pos hmax']
  rfl

end Waits

theorem waits_allocClosure (w : World Callee) (callee : Callee) (arity : Nat) :
    ∃ w', allocClosure callee arity w = (.ok w.cells.size, w') ∧ w.Grows w' ∧
      Waits w' w.cells.size callee arity [] :=
  ⟨_, rfl, ⟨.push w _, rfl⟩, Array.replicate arity none, by simp, rfl, Array.getElem?_push_size⟩

/-- Fewer arguments than the code takes: only closures are made. -/
theorem Waits.foldlM_apply (h : Waits w p callee arity supplied) {args}
    (hmore : supplied.length + args.length < arity) (call : Callee → List Address → CodeM Address) :
    ∃ p' w', args.foldlM (apply call) p w = (.ok p', w') ∧ w.Grows w' ∧
      Waits w' p' callee arity (supplied ++ args) := by
  induction args generalizing w p supplied with
  | nil => exact ⟨p, w, rfl, .refl w, (List.append_nil supplied).symm ▸ h⟩
  | cons arg rest ih =>
    rw [List.length_cons] at hmore
    obtain ⟨w₁, hrun, hgrows, hwaits⟩ := h.apply_more (by omega) call arg
    obtain ⟨p', w', hrest, hgrows', hwaits'⟩ := ih hwaits (by simpa using by omega)
    refine ⟨p', w', ?_, hgrows.trans hgrows', ?_⟩
    · rw [List.foldlM_cons, CodeM.bind_apply, hrun]
      exact hrest
    · rwa [List.append_assoc] at hwaits'

/-! ## Values that wait for arguments -/

section

variable {m : Type → Type} [Monad m] [MonadExceptOf RunError m]
  {invoke : Callee → List Value → m Value} {args : List Value}

theorem apply_closure_of_lt (v : Value) (h : args.length + 1 < arity) :
    Machine.apply invoke (.closure callee arity args) v =
      pure (.closure callee arity (args ++ [v])) := by
  simp only [Machine.apply, List.length_append, List.length_singleton, if_pos h]

theorem apply_closure_last (v : Value) (h : arity ≤ args.length + 1)
    (hmax : ¬(arity = 0 ∨ maxArity < arity)) :
    Machine.apply invoke (.closure callee arity args) v = invoke callee (args ++ [v]) := by
  simp only [Machine.apply, List.length_append, List.length_singleton, if_neg (Nat.not_lt.mpr h),
    if_neg hmax]

theorem apply_closure_refused (v : Value) (h : arity ≤ args.length + 1)
    (hmax : arity = 0 ∨ maxArity < arity) :
    Machine.apply invoke (.closure callee arity args) v = throw (.unsupportedArity arity) := by
  simp only [Machine.apply, List.length_append, List.length_singleton, if_neg (Nat.not_lt.mpr h),
    if_pos hmax]

theorem foldlM_apply_of_lt [LawfulMonad m] {more : List Value}
    (h : args.length + more.length < arity) :
    more.foldlM (Machine.apply invoke) (.closure callee arity args) =
      pure (.closure callee arity (args ++ more)) := by
  induction more generalizing args with
  | nil => rw [List.foldlM_nil, List.append_nil]
  | cons v rest ih =>
    rw [List.length_cons] at h
    rw [List.foldlM_cons, apply_closure_of_lt v (by omega), pure_bind,
      ih (by simpa using by omega), List.append_assoc]
    rfl

end

/-! ## The same on both sides -/

section

variable {args : List Value} {slots : List (Option Address)} {addresses : List Address}
  {f v : Value} {a b : Address}

theorem Supplied.exists_addresses (h : Supplied w args slots) :
    ∃ addresses, List.Forall₂ (Represents w) args addresses ∧
      slots.take addresses.length = addresses.map some := by
  induction args generalizing slots with
  | nil => exact ⟨[], .nil, rfl⟩
  | cons first args ih =>
    cases h with
    | cons hfirst hargs =>
      obtain ⟨addresses, hall, htake⟩ := ih hargs
      exact ⟨_ :: addresses, .cons hfirst hall, congrArg _ htake⟩

theorem Supplied.of_forall₂ (h : List.Forall₂ (Represents w) args addresses)
    (htake : slots.take addresses.length = addresses.map some) : Supplied w args slots := by
  induction h generalizing slots with
  | nil => exact .nil slots
  | cons hfirst _ ih =>
    cases slots with
    | nil => cases htake
    | cons slot rest =>
      obtain ⟨rfl, hrest⟩ := List.cons_eq_cons.mp htake
      exact .cons hfirst (ih hrest)

/-- A closure is represented by a cell that waits for the rest of its arguments. -/
theorem represents_closure_iff : Represents w (.closure callee arity args) p ↔
    ∃ addresses, List.Forall₂ (Represents w) args addresses ∧ Waits w p callee arity addresses := by
  refine ⟨fun h => ?_, fun ⟨addresses, hall, slots, hsize, htake, hcell⟩ => ?_⟩
  · cases h with
    | @closure _ _ _ _ slots hcell hsize hargs =>
      obtain ⟨addresses, hall, htake⟩ := hargs.exists_addresses
      exact ⟨addresses, hall, slots, hsize, htake, hall.length_eq ▸ hcell⟩
  · exact .closure (hall.length_eq ▸ hcell) hsize (.of_forall₂ hall htake)

/-- What an application comes to: a new closure on both sides, the same complaint on both, or a call
of the same code with the same arguments. -/
theorem apply_cases {m} [Monad m] [MonadExceptOf RunError m]
    (invoke : Callee → List Value → m Value) (call : Callee → List Address → CodeM Address)
    (hf : Represents w f a) (hv : Represents w v b) :
    (∃ u c w', Machine.apply invoke f v = pure u ∧ apply call a b w = (.ok c, w') ∧ w.Grows w' ∧
        Represents w' u c) ∨
      (∃ e fatal, Machine.apply invoke f v = throw e ∧ apply call a b w = (.error fatal, w) ∧
        Fatal.of? e = some fatal) ∨
      ∃ callee args addresses, Machine.apply invoke f v = invoke callee args ∧
        apply call a b w = call callee addresses w ∧
        List.Forall₂ (Represents w) args addresses := by
  cases hf with
  | int hcell | str hcell | con hcell =>
    refine .inr (.inl ⟨_, _, rfl, ?_, rfl⟩)
    rw [apply, CodeM.bind_apply, load_of_cell hcell]
    rfl
  | @closure _ callee arity args _ hcell hsize hargs =>
    obtain ⟨addresses, hall, hwaits⟩ := represents_closure_iff.mp (.closure hcell hsize hargs)
    have hlen := hall.length_eq
    by_cases hmore : args.length + 1 < arity
    · obtain ⟨w', hrun, hgrows, hwaits'⟩ := hwaits.apply_more (hlen ▸ hmore) call b
      refine .inl ⟨_, _, w', apply_closure_of_lt v hmore, hrun, hgrows, ?_⟩
      refine represents_closure_iff.mpr ⟨_, List.rel_append ?_ (.cons ?_ .nil), hwaits'⟩
      · exact hall.imp fun _ _ h => h.mono hgrows.keeps
      · exact hv.mono hgrows.keeps
    · by_cases hmax : arity = 0 ∨ maxArity < arity
      · exact .inr (.inl ⟨_, _, apply_closure_refused v (by omega) hmax,
          hwaits.apply_refused (by omega) hmax call b, rfl⟩)
      · exact .inr (.inr ⟨_, _, _, apply_closure_last v (by omega) hmax,
          hwaits.apply_last (by omega) hmax call b, List.rel_append hall (.cons hv .nil)⟩)

end

/-! ## Histories -/

/-- A history of applications. Each applies one of the values so far to another, both given by their
places, and its result is the next value. A place where there is no value is passed over. -/
def replay {m : Type → Type} [Monad m] {α : Type} (apply : α → α → m α) :
    List (Nat × Nat) → List α → m (List α)
  | [], values => return values
  | (func, arg) :: rest, values =>
    match values[func]?, values[arg]? with
    | some f, some v => do replay apply rest (values ++ [← apply f v])
    | _, _ => replay apply rest values

section

variable {σ α β : Type}

/-- A run and a native computation that starts with the memory `w` end alike: with related answers,
or with an error and its message. No cell of `w` has changed. -/
inductive EndAlike (w : World Callee) (R : World Callee → α → β → Prop) :
    Except RunError α × σ → Except Fatal β × World Callee → Prop
  | done {a b s w'} (hext : w.Extends w') (h : R w' a b) : EndAlike w R (.ok a, s) (.ok b, w')
  | failed {e f s w'} (hext : w.Extends w') (h : Fatal.of? e = some f) :
      EndAlike w R (.error e, s) (.error f, w')

theorem EndAlike.bind {γ δ R S x y} {f : α → ExceptT RunError (StateM σ) γ} {g : β → CodeM δ} {s}
    (h : EndAlike w R (x s) (y w))
    (hnext : ∀ {w' : World Callee} {a : α} {b : β} (s' : σ), w.Extends w' → R w' a b →
      EndAlike w' S (f a s') (g b w')) : EndAlike w S ((x >>= f) s) ((y >>= g) w) := by
  have hbind : (x >>= f) s = match x s with
      | (.ok a, s') => f a s'
      | (.error e, s') => (.error e, s') := by
    simp only [Bind.bind, ExceptT.bind, ExceptT.mk, StateT.bind]
    rcases x s with ⟨_ | _, s'⟩ <;> rfl
  rw [hbind, CodeM.bind_apply]
  generalize x s = run at h ⊢
  generalize y w = native at h ⊢
  cases h with
  | failed hext he => exact .failed hext he
  | @done a b s' w' hext hab =>
    -- what is there after the first computation is kept by the second
    have hrest := hnext s' hext hab
    simp only
    generalize f a s' = run at hrest ⊢
    generalize g b w' = native at hrest ⊢
    cases hrest with
    | done hext' hcd => exact .done (hext.trans hext') hcd
    | failed hext' he => exact .failed (hext.trans hext') he

theorem forall₂_getElem? {R : α → β → Prop} {as bs} (h : List.Forall₂ R as bs) (i : Nat) :
    Option.Rel R as[i]? bs[i]? := by
  induction h generalizing i with
  | nil => exact .none
  | cons hab _ ih =>
    cases i with
    | zero => exact .some hab
    | succ i => exact ih i

/-- Calls on both sides with the same arguments end alike. -/
def CallsAgree (invoke : Callee → List Value → ExceptT RunError (StateM σ) Value)
    (call : Callee → List Address → CodeM Address) : Prop :=
  ∀ {w : World Callee} {callee : Callee} {args : List Value} {addresses : List Address} (s : σ),
    List.Forall₂ (Represents w) args addresses →
      EndAlike w Represents (invoke callee args s) (call callee addresses w)

variable {invoke : Callee → List Value → ExceptT RunError (StateM σ) Value}

theorem CallsAgree.apply (h : CallsAgree invoke call) {f v a b} (hf : Represents w f a)
    (hv : Represents w v b) (s : σ) :
    EndAlike w Represents (Machine.apply invoke f v s) (Native.apply call a b w) := by
  obtain ⟨u, c, w', hx, hy, hgrows, hrep⟩ | ⟨e, fatal, hx, hy, he⟩ |
    ⟨callee, args, addresses, hx, hy, hall⟩ := apply_cases invoke call hf hv
  · rw [hx, hy]
    exact .done hgrows.keeps hrep
  · rw [hx, hy]
    exact .failed (.refl w) he
  · rw [hx, hy]
    exact h s hall

/-- Along a history every value stays represented at its address. -/
theorem CallsAgree.replay (h : CallsAgree invoke call) (history : List (Nat × Nat))
    {values addresses} (hall : List.Forall₂ (Represents w) values addresses) (s : σ) :
    EndAlike w (fun w' => List.Forall₂ (Represents w'))
      (Native.replay (Machine.apply invoke) history values s)
      (Native.replay (Native.apply call) history addresses w) := by
  induction history generalizing w values addresses s with
  | nil => exact .done (.refl w) hall
  | cons application rest ih =>
    obtain ⟨func, arg⟩ := application
    have hfunc := forall₂_getElem? hall func
    have harg := forall₂_getElem? hall arg
    unfold Native.replay
    generalize values[func]? = f at hfunc ⊢
    generalize values[arg]? = v at harg ⊢
    generalize addresses[func]? = a at hfunc ⊢
    generalize addresses[arg]? = b at harg ⊢
    cases hfunc with
    | none => exact ih hall s
    | some hf =>
      cases harg with
      | none => exact ih hall s
      | some hv =>
        refine .bind (h.apply hf hv s) fun s' hext hnew => ?_
        exact ih (List.rel_append (hall.imp fun _ _ hold => hold.mono hext) (.cons hnew .nil)) s'

end

/-! ## Saturation -/

/-- Code that takes so many arguments is refused once it has them. -/
def Refused (arity supplied : Nat) : Prop :=
  arity = 0 ∧ supplied = 1 ∨ maxArity < arity ∧ supplied = arity

/-- How a new closure behaves on the machine when it is applied to one argument after the other. The
equations are between computations, so an invoker that they do not mention is not called. -/
structure Saturates {σ : Type} (invoke : Callee → List Value → ExceptT RunError (StateM σ) Value)
    (callee : Callee) (arity : Nat) : Prop where
  waits : ∀ args : List Value, args.length < arity →
    args.foldlM (Machine.apply invoke) (.closure callee arity []) =
      pure (.closure callee arity args)
  calls : ∀ args : List Value, args.length = arity → 1 ≤ arity → arity ≤ maxArity →
    args.foldlM (Machine.apply invoke) (.closure callee arity []) = invoke callee args
  refuses : ∀ args : List Value, Refused arity args.length →
    args.foldlM (Machine.apply invoke) (.closure callee arity []) = throw (.unsupportedArity arity)

/-- A new closure applied to one argument after the other, in a native program. -/
def applyNew (call : Callee → List Address → CodeM Address) (callee : Callee) (arity : Nat)
    (args : List Address) : CodeM Address := do
  args.foldlM (apply call) (← allocClosure callee arity)

/-- How a new closure behaves in a native program. Up to the call only cells are added. -/
structure SaturatesNative (call : Callee → List Address → CodeM Address) (callee : Callee)
    (arity : Nat) : Prop where
  waits : ∀ (w : World Callee) (args : List Address), args.length < arity →
    ∃ p w', applyNew call callee arity args w = (.ok p, w') ∧ w.Grows w' ∧
      Waits w' p callee arity args
  calls : ∀ (w : World Callee) (args : List Address), args.length = arity → 1 ≤ arity →
    arity ≤ maxArity → ∃ w', w.Grows w' ∧ applyNew call callee arity args w = call callee args w'
  refuses : ∀ (w : World Callee) (args : List Address), Refused arity args.length →
    ∃ w', w.Grows w' ∧
      applyNew call callee arity args w = (.error (.unsupportedArity arity), w')

theorem exists_concat {α : Type} {args : List α} (hpos : 0 < args.length) :
    ∃ init last, args = init ++ [last] ∧ args.length = init.length + 1 := by
  rcases args.eq_nil_or_concat with rfl | ⟨init, last, rfl⟩
  · cases hpos
  · exact ⟨init, last, List.concat_eq_append, List.length_concat⟩

theorem Refused.pos {supplied : Nat} (h : Refused arity supplied) : 0 < supplied := by
  rcases h with ⟨-, rfl⟩ | ⟨hmax, rfl⟩
  · exact Nat.one_pos
  · exact Nat.zero_lt_of_lt hmax

/-- Code is refused at the last argument that it is given. -/
theorem Refused.of_concat {α : Type} {init : List α} (h : Refused arity (init.length + 1)) :
    (init.length < arity ∨ init = []) ∧ arity ≤ init.length + 1 ∧
      (arity = 0 ∨ maxArity < arity) := by
  rcases h with ⟨rfl, hlen⟩ | ⟨hmax, hlen⟩
  · exact ⟨.inr (List.eq_nil_of_length_eq_zero (Nat.succ.inj hlen)), Nat.zero_le _, .inl rfl⟩
  · exact ⟨.inl (by omega), Nat.le_of_eq hlen.symm, .inr hmax⟩

/-- All arguments but the last make a closure, and the last one is applied to that. -/
theorem foldlM_concat {σ} (invoke : Callee → List Value → ExceptT RunError (StateM σ) Value) {init}
    (h : init.length < arity ∨ init = []) (last : Value) :
    (init ++ [last]).foldlM (Machine.apply invoke) (.closure callee arity []) =
      Machine.apply invoke (.closure callee arity init) last := by
  have hinit : init.foldlM (Machine.apply invoke) (.closure callee arity []) =
      pure (.closure callee arity init) := by
    rcases h with hlt | rfl
    · rw [foldlM_apply_of_lt (by simpa using hlt), List.nil_append]
    · rfl
  rw [List.foldlM_append, hinit, pure_bind, List.foldlM_cons]
  exact bind_pure _

theorem saturates {σ : Type} (invoke : Callee → List Value → ExceptT RunError (StateM σ) Value)
    (callee : Callee) (arity : Nat) : Saturates invoke callee arity where
  waits args hlen := by
    rw [foldlM_apply_of_lt (by simpa using hlen), List.nil_append]
  calls args hlen hpos hmax := by
    obtain ⟨init, last, rfl, hinit⟩ := exists_concat (hlen ▸ hpos)
    rw [foldlM_concat invoke (.inl (by omega))]
    exact apply_closure_last last (by omega) (by omega)
  refuses args h := by
    obtain ⟨init, last, rfl, hinit⟩ := exists_concat h.pos
    obtain ⟨hlt, hlast, hmax⟩ := (hinit ▸ h).of_concat
    rw [foldlM_concat invoke hlt]
    exact apply_closure_refused last hlast hmax

theorem applyNew_waits (call : Callee → List Address → CodeM Address) (callee : Callee)
    (w : World Callee) {args} (h : args.length < arity ∨ args = []) :
    ∃ p w', applyNew call callee arity args w = (.ok p, w') ∧ w.Grows w' ∧
      Waits w' p callee arity args := by
  obtain ⟨w₁, halloc, hgrows, hwaits⟩ := waits_allocClosure w callee arity
  rw [applyNew, CodeM.bind_apply, halloc]
  rcases h with hlt | rfl
  · obtain ⟨p, w', hrun, hgrows', hwaits'⟩ := hwaits.foldlM_apply (by simpa using hlt) call
    exact ⟨p, w', hrun, hgrows.trans hgrows', hwaits'⟩
  · exact ⟨_, w₁, rfl, hgrows, hwaits⟩

theorem applyNew_concat (call : Callee → List Address → CodeM Address) (callee : Callee)
    (w : World Callee) {init} (h : init.length < arity ∨ init = []) (last : Address) :
    ∃ p w', w.Grows w' ∧ Waits w' p callee arity init ∧
      applyNew call callee arity (init ++ [last]) w = apply call p last w' := by
  obtain ⟨p, w', hrun, hgrows, hwaits⟩ := applyNew_waits call callee w h
  refine ⟨p, w', hgrows, hwaits, ?_⟩
  have hconcat : applyNew call callee arity (init ++ [last]) =
      applyNew call callee arity init >>= fun p => apply call p last := by
    simp [applyNew]
  rw [hconcat, CodeM.bind_apply, hrun]

theorem saturatesNative (call : Callee → List Address → CodeM Address) (callee : Callee)
    (arity : Nat) : SaturatesNative call callee arity where
  waits w args hlen := applyNew_waits call callee w (.inl hlen)
  calls w args hlen hpos hmax := by
    obtain ⟨init, last, rfl, hinit⟩ := exists_concat (hlen ▸ hpos)
    have hlt : init.length < arity := by omega
    obtain ⟨p, w', hgrows, hwaits, hrun⟩ := applyNew_concat call callee w (.inl hlt) last
    exact ⟨w', hgrows, hrun.trans (hwaits.apply_last (by omega) (by omega) call last)⟩
  refuses w args h := by
    obtain ⟨init, last, rfl, hinit⟩ := exists_concat h.pos
    obtain ⟨hlt, hlast, hmax⟩ := (hinit ▸ h).of_concat
    obtain ⟨p, w', hgrows, hwaits, hrun⟩ := applyNew_concat call callee w hlt last
    exact ⟨w', hgrows, hrun.trans (hwaits.apply_refused hlast hmax call last)⟩

/-- Curried application saturates exactly once. A closure of code that takes `arity` arguments,
applied to one after the other, is a closure with those arguments, and the invoker is left alone,
until the last one comes: then the code is called with all of them, once, and its result or error is
that of the application. Code that takes no arguments, or too many, is refused at that point without
a call. In a native program, where the closure is a cell, the same happens. And along every history of
applications, in which closures are shared in any way, the two sides agree and no cell that exists
is changed, if that holds of the calls. -/
theorem application_saturates_once {σ : Type}
    (invoke : Callee → List Value → ExceptT RunError (StateM σ) Value)
    (call : Callee → List Address → CodeM Address) (callee : Callee) (arity : Nat) :
    Saturates invoke callee arity ∧ SaturatesNative call callee arity ∧
      (CallsAgree invoke call → ∀ (history : List (Nat × Nat)) (w : World Callee)
        (values : List Value) (addresses : List Address) (s : σ),
        List.Forall₂ (Represents w) values addresses →
          EndAlike w (fun w' => List.Forall₂ (Represents w'))
            (replay (Machine.apply invoke) history values s)
            (replay (apply call) history addresses w)) :=
  ⟨saturates invoke callee arity, saturatesNative call callee arity,
    fun hcalls history _ _ _ s hall => hcalls.replay history hall s⟩

end Lamina.Native
