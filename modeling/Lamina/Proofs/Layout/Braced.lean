import Lamina.Proofs.Layout.Settled

/-!
# Layout of braced texts

Where every block is in braces, indentation stands for nothing: layout keeps the tokens as they are,
wherever they stand. `Braced` is the condition, and it can be checked piece by piece, because the
pieces that open no block and those in braces do not change what comes behind them.
-/

namespace Lamina.Layout

variable {rest inside values : List Token} {level : Nat}

/-- Are all blocks of the tokens in braces that match? `level` braces are open before them, and
`due` says that a block opens right before them. -/
def Braced : (level : Nat) → (due : Bool) → List Token → Prop
  | level, due, [] => level = 0 ∧ due = false
  | level, due, token :: rest =>
    if token = .punct .lbrace then Braced (level + 1) false rest
    else if token = .punct .rbrace then due = false ∧ 0 < level ∧ Braced (level - 1) false rest
    else due = false ∧ token ≠ .eof ∧ Braced level (opensBlock token) rest

/-! ## Pieces -/

/-- Tokens before which and behind which the same braces are open. -/
def Neutral (tokens : List Token) : Prop :=
  ∀ level rest, Braced level false rest → Braced level false (tokens ++ rest)

theorem Neutral.nil : Neutral [] := fun _ _ h => h

theorem Neutral.append {first second : List Token} (h : Neutral first) (h' : Neutral second) :
    Neutral (first ++ second) := by
  intro level rest hrest
  rw [List.append_assoc]
  exact h level _ (h' level rest hrest)

/-- A token that opens nothing, closes nothing and is not the end. -/
def isLoose : Token → Bool
  | .punct .lbrace | .punct .rbrace | .eof => false
  | token => !opensBlock token

theorem isLoose_iff (token : Token) : isLoose token ↔
    token ≠ .punct .lbrace ∧ token ≠ .punct .rbrace ∧ token ≠ .eof ∧ opensBlock token = false := by
  unfold isLoose
  split <;> simp_all

theorem Neutral.cons {token : Token} (h : isLoose token) (hrest : Neutral rest) :
    Neutral (token :: rest) := by
  intro level more hmore
  obtain ⟨hopen, hclose, hend, hblock⟩ := (isLoose_iff token).mp h
  rw [List.cons_append, Braced, if_neg hopen, if_neg hclose, hblock]
  exact ⟨rfl, hend, hrest level more hmore⟩

theorem Neutral.braced {tokens : List Token} (h : Neutral tokens) : Braced 0 false tokens := by
  have hbraced := h 0 [] ⟨rfl, rfl⟩
  rwa [List.append_nil] at hbraced

/-- Braces may stand where a block is due, and where none is. -/
theorem braced_braces (due : Bool) (hinside : Neutral inside) (hrest : Braced level false rest) :
    Braced level due (.punct .lbrace :: (inside ++ .punct .rbrace :: rest)) := by
  rw [Braced, if_pos rfl]
  refine hinside _ _ ?_
  rw [Braced, if_neg (by decide), if_pos rfl]
  exact ⟨rfl, Nat.succ_pos level, hrest⟩

/-- A block in braces behind the word that opens it. -/
theorem Neutral.block {word : Keyword} (hinside : Neutral inside) (hrest : Neutral rest) :
    Neutral (.keyword word :: .punct .lbrace :: (inside ++ .punct .rbrace :: rest)) := by
  intro level more hmore
  rw [List.cons_append, List.cons_append, List.append_assoc, List.cons_append, Braced,
    if_neg (by simp), if_neg (by simp)]
  exact ⟨rfl, by simp, braced_braces _ hinside (hrest level more hmore)⟩

/-! ## Layout keeps braced tokens -/

/-- Tokens whose blocks are all in braces leave nothing to layout. -/
theorem Braced.settled {due : Bool} (h : Braced level due values) :
    Settled level due (values ++ [.eof]) := by
  induction values generalizing level due with
  | nil => exact ⟨h.1, h.2, rfl⟩
  | cons token rest ih =>
    rw [Braced] at h
    rw [List.cons_append, Settled]
    split at h
    · rename_i hopen
      rw [if_neg (by simp [hopen]), if_pos hopen]
      exact ih h
    · rename_i hopen
      split at h
      · rename_i hclose
        rw [if_neg (by simp [hclose]), if_neg hopen, if_pos hclose]
        exact ⟨h.1, ih h.2.2⟩
      · rename_i hclose
        rw [if_neg h.2.1, if_neg hopen, if_neg hclose]
        exact ⟨h.1, ih h.2.2⟩

/-- A text that starts with a header or a brace, and has all its blocks in braces, is kept as it
is. -/
theorem resolve_braced (source : String) {first : Token}
    (hfirst : first = .keyword .moduleKw ∨ first = .punct .lbrace)
    (h : Braced 0 false (first :: values)) {tokens}
    (hvalues : tokens.map Located.value = first :: values ++ [.eof]) :
    resolve source tokens = .ok tokens := by
  have hstart : start tokens = ⟨[], 0, 0, none⟩ := by
    obtain ⟨⟨_, span⟩, rest, rfl, rfl, -⟩ := List.map_eq_cons_iff.mp hvalues
    rcases hfirst with hfirst | hfirst
    · cases hfirst
      rfl
    · cases hfirst
      rfl
  have hsettled : Settled 0 (none : Option Bool).isSome (tokens.map Located.value) := by
    rw [hvalues]
    exact h.settled
  unfold resolve
  rw [hstart]
  exact resolveFrom_settled _ hsettled 0 0

end Lamina.Layout
