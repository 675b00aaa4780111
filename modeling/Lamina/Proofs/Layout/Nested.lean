import Lamina.Layout

/-!
# Nested braces

A word of tokens is nested if its braces are, and if a brace that layout wrote is never paired with
one of the text. `Ends` allows for braces that close blocks around the word, `ClosedIn` says that a
block that opens right before a word ends in it, and `Bracketed` is about all the brackets of a text.
-/

namespace Lamina.Layout

variable {tokens : List (Located Token)}

/-- Does a token take no room in the text? The end does not, and the marks of layout do not. -/
def isMark (token : Located Token) : Bool :=
  token.span.start == token.span.stop

/-- The braces are balanced, and each pair is one of the text or one that layout wrote. -/
inductive Nested : List (Located Token) → Prop
  | nil : Nested []
  | loose {token rest} (hopen : token.value ≠ .punct .lbrace)
      (hclose : token.value ≠ .punct .rbrace) (hrest : Nested rest) : Nested (token :: rest)
  | block {opening closing inside rest} (hopening : opening.value = .punct .lbrace)
      (hclosing : closing.value = .punct .rbrace) (hsame : isMark closing = isMark opening)
      (hinside : Nested inside) (hrest : Nested rest) :
      Nested (opening :: (inside ++ closing :: rest))

/-- Nested, but for `count` closing braces that are marks or not, as `mark` says. -/
inductive Ends (mark : Bool) : (count : Nat) → List (Located Token) → Prop
  | nested {word} (h : Nested word) : Ends mark 0 word
  | closing {count word rest closing} (hword : Nested word)
      (hclosing : closing.value = .punct .rbrace) (hmark : isMark closing = mark)
      (hrest : Ends mark count rest) : Ends mark (count + 1) (word ++ closing :: rest)

/-- A block that opens right before the tokens is closed in them, by a mark or by a brace of the
text. -/
def ClosedIn (mark : Bool) (tokens : List (Located Token)) : Prop :=
  ∃ inside closing rest, tokens = inside ++ closing :: rest ∧ closing.value = .punct .rbrace ∧
    isMark closing = mark ∧ Nested inside

/-- Some brace of the tokens opens a block that no brace of the text closes. -/
def Unclosed (tokens : List (Located Token)) : Prop :=
  ∃ before opening after, tokens = before ++ opening :: after ∧
    opening.value = .punct .lbrace ∧ ¬ClosedIn false after

/-- Every brace that closes has one before it that opens a block and that none has closed yet. -/
def ClosesOpened (tokens : List (Located Token)) : Prop :=
  ∀ before closing after, tokens = before ++ closing :: after → closing.value = .punct .rbrace →
    ∃ earlier opening inside, before = earlier ++ opening :: inside ∧
      opening.value = .punct .lbrace ∧ Nested inside

/-- Every block that layout opens in the tokens is closed in them. -/
def ClosesOwn (tokens : List (Located Token)) : Prop :=
  ∀ first brace rest, tokens = first ++ brace :: rest → brace.value = .punct .lbrace →
    isMark brace → ClosedIn true rest

/-- The bracket that closes a bracket. -/
def partner : Punct → Option Punct
  | .lparen => some .rparen
  | .lbracket => some .rbracket
  | .lbrace => some .rbrace
  | _ => none

/-- Is a token a bracket of any kind? -/
def isBracket : Token → Bool
  | .punct .lparen | .punct .lbracket | .punct .lbrace => true
  | .punct .rparen | .punct .rbracket | .punct .rbrace => true
  | _ => false

/-- All brackets, round, square and curly, are properly nested. -/
inductive Bracketed : List (Located Token) → Prop
  | nil : Bracketed []
  | loose {token rest} (htoken : isBracket token.value = false) (hrest : Bracketed rest) :
      Bracketed (token :: rest)
  | group {opening closing inside rest left right} (hopening : opening.value = .punct left)
      (hclosing : closing.value = .punct right) (hpartner : partner left = some right)
      (hinside : Bracketed inside) (hrest : Bracketed rest) :
      Bracketed (opening :: (inside ++ closing :: rest))

variable {mark : Bool} {count : Nat} {token brace : Located Token}
  {word inside first rest : List (Located Token)}

/-- Where a token of two words stands. -/
theorem append_eq_middle {α left right first rest} {a : α} (h : left ++ right = first ++ a :: rest)
    :
    (∃ more, left = first ++ a :: more ∧ rest = more ++ right) ∨
      ∃ more, first = left ++ more ∧ right = more ++ a :: rest := by
  rcases List.append_eq_append_iff.mp h with ⟨more, hfirst, hright⟩ | ⟨more, hleft, hmore⟩
  · exact .inr ⟨more, hfirst, hright⟩
  · cases more with
    | nil => exact .inr ⟨[], by simpa using hleft.symm, by simpa using hmore.symm⟩
    | cons b more =>
      obtain ⟨rfl, rfl⟩ := List.cons.inj hmore
      exact .inl ⟨more, hleft, rfl⟩

theorem block_append (opening closing : Located Token) (inside rest : List (Located Token)) :
    opening :: (inside ++ closing :: rest) = opening :: (inside ++ [closing]) ++ rest := by
  simp

theorem Nested.append (h : Nested word) (hrest : Nested rest) : Nested (word ++ rest) := by
  induction h with
  | nil => exact hrest
  | loose hopen hclose _ ih => exact .loose hopen hclose ih
  | block hopening hclosing hsame hinside _ _ ih =>
    rw [List.cons_append, List.append_assoc, List.cons_append]
    exact .block hopening hclosing hsame hinside ih

namespace Ends

theorem append (hword : Nested word) (h : Ends mark count rest) :
    Ends mark count (word ++ rest) := by
  cases h with
  | nested h => exact .nested (hword.append h)
  | closing hfirst hclosing hmark hrest =>
    rw [← List.append_assoc]
    exact .closing (hword.append hfirst) hclosing hmark hrest

theorem loose (hopen : token.value ≠ .punct .lbrace) (hclose : token.value ≠ .punct .rbrace)
    (h : Ends mark count rest) : Ends mark count (token :: rest) :=
  append (.loose hopen hclose .nil) h

theorem block {opening closing} (hopening : opening.value = .punct .lbrace)
    (hclosing : closing.value = .punct .rbrace) (hsame : isMark closing = isMark opening)
    (hinside : Nested inside) (h : Ends mark count rest) :
    Ends mark count (opening :: (inside ++ closing :: rest)) := by
  have hblock : Nested (opening :: (inside ++ [closing])) :=
    .block hopening hclosing hsame hinside .nil
  simpa using append hblock h

/-- A brace before the word pairs with the first one that closes a block around it. -/
theorem opening (hbrace : brace.value = .punct .lbrace) (hmark : isMark brace = mark)
    (h : Ends mark (count + 1) rest) : Ends mark count (brace :: rest) := by
  cases h with
  | closing hword hclosing hclosingMark hrest =>
    exact hrest.block hbrace hclosing (hclosingMark.trans hmark.symm) hword

theorem zero_iff : Ends mark 0 word ↔ Nested word := by
  constructor
  · intro h
    cases h with
    | nested h => exact h
  · exact .nested

end Ends

theorem ClosedIn.append (h : ClosedIn mark word) (rest : List (Located Token)) :
    ClosedIn mark (word ++ rest) := by
  obtain ⟨inside, closing, more, rfl, hclosing, hmark, hinside⟩ := h
  exact ⟨inside, closing, more ++ rest, by simp, hclosing, hmark, hinside⟩

theorem ClosedIn.prepend (hword : Nested word) (h : ClosedIn mark rest) :
    ClosedIn mark (word ++ rest) := by
  obtain ⟨inside, closing, more, rfl, hclosing, hmark, hinside⟩ := h
  exact ⟨word ++ inside, closing, more, by simp, hclosing, hmark, hword.append hinside⟩

theorem Unclosed.prepend (h : Unclosed rest) (word : List (Located Token)) :
    Unclosed (word ++ rest) := by
  obtain ⟨before, opening, after, rfl, hopening, hafter⟩ := h
  exact ⟨word ++ before, opening, after, by simp, hopening, hafter⟩

theorem ClosesOpened.of_append (h : ClosesOpened (word ++ rest)) : ClosesOpened word := by
  rintro before closing after rfl
  exact h before closing (after ++ rest) (by simp)

/-- A token that is no brace ends no block. -/
theorem unclosed_concat (hopen : token.value ≠ .punct .lbrace) (hclose : token.value ≠ .punct .rbrace) :
    Unclosed (word ++ [token]) ↔ Unclosed word := by
  constructor
  · rintro ⟨before, opening, after, htokens, hopening, hafter⟩
    rcases append_eq_middle htokens with ⟨more, rfl, rfl⟩ | ⟨more, -, hmore⟩
    · exact ⟨before, opening, more, rfl, hopening, fun hclosed => hafter (hclosed.append _)⟩
    · have hmem : opening ∈ [token] := by simp [hmore]
      rw [List.mem_singleton.mp hmem] at hopening
      exact absurd hopening hopen
  · rintro ⟨before, opening, after, rfl, hopening, hafter⟩
    refine ⟨before, opening, after ++ [token], by simp, hopening, ?_⟩
    rintro ⟨inside, closing, rest, hsplit, hclosing, hmark, hinside⟩
    rcases append_eq_middle hsplit with ⟨more, rfl, -⟩ | ⟨more, -, hmore⟩
    · exact hafter ⟨inside, closing, more, rfl, hclosing, hmark, hinside⟩
    · have hmem : closing ∈ [token] := by simp [hmore]
      rw [List.mem_singleton.mp hmem] at hclosing
      exact absurd hclosing hclose

/-- Every block that opens in a nested word is closed in it. -/
theorem Nested.closedIn (h : Nested word) (hword : word = first ++ brace :: rest)
    (hbrace : brace.value = .punct .lbrace) : ClosedIn (isMark brace) rest := by
  induction h generalizing first rest with
  | nil => simp at hword
  | loose hopen _ _ ih =>
    rcases List.cons_eq_append_iff.mp hword with ⟨-, hhead⟩ | ⟨more, -, hrest⟩
    · obtain ⟨rfl, -⟩ := List.cons.inj hhead
      exact absurd hbrace hopen
    · exact ih hrest
  | block hopening hclosing hsame hinside _ ihInside ihRest =>
    rcases List.cons_eq_append_iff.mp hword with ⟨-, hhead⟩ | ⟨more, -, hrest⟩
    · obtain ⟨rfl, rfl⟩ := List.cons.inj hhead
      exact ⟨_, _, _, rfl, hclosing, hsame, hinside⟩
    · rcases append_eq_middle hrest with ⟨_, hleft, rfl⟩ | ⟨behind, -, hright⟩
      · exact (ihInside hleft).append _
      · rcases List.cons_eq_append_iff.mp hright with ⟨-, hhead⟩ | ⟨more, -, hrest⟩
        · obtain ⟨rfl, -⟩ := List.cons.inj hhead
          exact absurd (hbrace.symm.trans hclosing) nofun
        · exact ihRest hrest

theorem Ends.closedIn (h : Ends mark count word) (hword : word = first ++ brace :: rest)
    (hbrace : brace.value = .punct .lbrace) : ClosedIn (isMark brace) rest := by
  induction h generalizing first rest with
  | nested h => exact h.closedIn hword hbrace
  | closing hnested hclosing _ _ ih =>
    rcases append_eq_middle hword with ⟨_, hleft, rfl⟩ | ⟨more, -, hright⟩
    · exact (hnested.closedIn hleft hbrace).append _
    · rcases List.cons_eq_append_iff.mp hright with ⟨-, hhead⟩ | ⟨more, -, hrest⟩
      · obtain ⟨rfl, -⟩ := List.cons.inj hhead
        exact absurd (hbrace.symm.trans hclosing) nofun
      · exact ih hrest

/-- Every brace of a nested word has its partner. -/
theorem Nested.closesOpened (h : Nested word) : ClosesOpened word := by
  intro before closing after hword hclosing
  induction h generalizing before after with
  | nil => simp at hword
  | @loose token rest _ hclose _ ih =>
    rcases List.cons_eq_append_iff.mp hword with ⟨-, hhead⟩ | ⟨more, rfl, hrest⟩
    · obtain ⟨rfl, -⟩ := List.cons.inj hhead
      exact absurd hclosing hclose
    · obtain ⟨earlier, opening, inside, rfl, hinside⟩ := ih more after hrest
      exact ⟨token :: earlier, opening, inside, rfl, hinside⟩
  | @block opening brace inside rest hopening _ _ hinside _ ihInside ihRest =>
    rcases List.cons_eq_append_iff.mp hword with ⟨-, hhead⟩ | ⟨more, rfl, hrest⟩
    · obtain ⟨rfl, -⟩ := List.cons.inj hhead
      exact absurd (hclosing.symm.trans hopening) nofun
    · rcases append_eq_middle hrest with ⟨_, hleft, -⟩ | ⟨behind, rfl, hright⟩
      · obtain ⟨earlier, left, inner, rfl, hinner⟩ := ihInside more _ hleft
        exact ⟨opening :: earlier, left, inner, rfl, hinner⟩
      · rcases List.cons_eq_append_iff.mp hright with ⟨rfl, -⟩ | ⟨behind, rfl, hmore⟩
        · exact ⟨[], opening, inside, by simp, hopening, hinside⟩
        · obtain ⟨earlier, left, inner, rfl, hinner⟩ := ihRest behind after hmore
          exact ⟨opening :: (inside ++ brace :: earlier), left, inner, by simp, hinner⟩

/-- Where all brackets of a text are nested, the braces are. -/
theorem Bracketed.nested (h : Bracketed word) (htext : ∀ token ∈ word, isMark token = false) :
    Nested word := by
  induction h with
  | nil => exact .nil
  | loose htoken _ ih =>
    rw [List.forall_mem_cons] at htext
    refine .loose ?_ ?_ (ih htext.2) <;> intro hvalue <;> simp [hvalue, isBracket] at htoken
  | @group opening closing inside rest left right hopening hclosing hpartner _ _ ihInside ihRest =>
    simp only [List.forall_mem_cons, List.forall_mem_append] at htext
    obtain ⟨hopeningText, hinsideText, hclosingText, hrestText⟩ := htext
    have hgroup (hleft : left ≠ .lbrace ∧ left ≠ .rbrace)
        (hright : right ≠ .lbrace ∧ right ≠ .rbrace) :
        Nested (opening :: (inside ++ closing :: rest)) := by
      refine .loose (by simp [hopening, hleft]) (by simp [hopening, hleft]) ?_
      refine .append (ihInside hinsideText) ?_
      exact .loose (by simp [hclosing, hright]) (by simp [hclosing, hright]) (ihRest hrestText)
    unfold partner at hpartner
    split at hpartner <;> cases hpartner
    · exact hgroup (by simp) (by simp)
    · exact hgroup (by simp) (by simp)
    · exact .block hopening hclosing (hclosingText.trans hopeningText.symm) (ihInside hinsideText)
        (ihRest hrestText)

/-- The number of blocks that are open behind a word, if no brace of it closes nothing. -/
def levelBehind : (level : Nat) → List (Located Token) → Option Nat
  | level, [] => some level
  | level, token :: rest =>
    if token.value = .punct .lbrace then levelBehind (level + 1) rest
    else if token.value = .punct .rbrace then
      match level with
      | 0 => none
      | level + 1 => levelBehind level rest
    else levelBehind level rest

theorem Nested.levelBehind_append (h : Nested word) (level : Nat) (rest : List (Located Token)) :
    levelBehind level (word ++ rest) = levelBehind level rest := by
  induction h generalizing level rest with
  | nil => rfl
  | loose hopen hclose _ ih => simp [levelBehind, hopen, hclose, ih]
  | block hopening hclosing _ _ _ ihInside ihRest =>
    simp [levelBehind, hopening, hclosing, ihInside, ihRest]

/-- In a nested word, no block is open before a brace of the word that pairs with none inside it. -/
theorem Nested.not_unmatched (hword : Nested (first ++ brace :: word))
    (hbrace : brace.value = .punct .lbrace) : ¬Nested word := by
  intro h
  obtain ⟨inside, closing, rest, rfl, hclosing, -, hinside⟩ := hword.closedIn rfl hbrace
  have hnone : levelBehind 0 (inside ++ closing :: rest) = none := by
    rw [hinside.levelBehind_append]
    simp [levelBehind, hclosing]
  have hsome := h.levelBehind_append 0 []
  rw [List.append_nil, hnone] at hsome
  cases hsome

/-- Induction over tokens, block by block where a block is closed in them. -/
theorem block_induction {motive : List (Located Token) → Prop} (nil : motive [])
    (loose : ∀ token rest, token.value ≠ .punct .lbrace → token.value ≠ .punct .rbrace →
      motive rest → motive (token :: rest))
    (closing : ∀ token rest, token.value = .punct .rbrace → motive rest → motive (token :: rest))
    (unclosed : ∀ token rest, token.value = .punct .lbrace → ¬ClosedIn false rest → motive rest →
      motive (token :: rest))
    (block : ∀ opening inside closing rest, opening.value = .punct .lbrace →
      closing.value = .punct .rbrace → isMark closing = false → Nested inside → motive rest →
      motive (opening :: (inside ++ closing :: rest)))
    (tokens : List (Located Token)) : motive tokens := by
  induction hlength : tokens.length using Nat.strongRecOn generalizing tokens with
  | _ length ih =>
    subst hlength
    cases tokens with
    | nil => exact nil
    | cons token rest =>
      have hrest : motive rest := ih rest.length (by simp) rest rfl
      by_cases hopen : token.value = .punct .lbrace
      · by_cases hclosed : ClosedIn false rest
        · obtain ⟨inside, brace, more, rfl, hbrace, hmark, hinside⟩ := hclosed
          exact block token inside brace more hopen hbrace hmark hinside
            (ih more.length (by simp +arith) more rfl)
        · exact unclosed token rest hopen hclosed hrest
      · by_cases hclose : token.value = .punct .rbrace
        · exact closing token rest hclose hrest
        · exact loose token rest hopen hclose hrest

/-- If all blocks that open in the tokens of a text are closed in them, then the tokens are nested but
for braces that close nothing. -/
theorem exists_ends (htext : ∀ token ∈ tokens, isMark token = false) (h : ¬Unclosed tokens) :
    ∃ count, Ends false count tokens := by
  induction tokens using block_induction with
  | nil => exact ⟨0, .nested .nil⟩
  | loose token rest hopen hclose ih =>
    rw [List.forall_mem_cons] at htext
    obtain ⟨count, hrest⟩ := ih htext.2 fun hrest => h (hrest.prepend [token])
    exact ⟨count, hrest.loose hopen hclose⟩
  | closing token rest hclose ih =>
    rw [List.forall_mem_cons] at htext
    obtain ⟨count, hrest⟩ := ih htext.2 fun hrest => h (hrest.prepend [token])
    exact ⟨count + 1, .closing .nil hclose htext.1 hrest⟩
  | unclosed token rest hopen hclosed => exact absurd ⟨[], token, rest, rfl, hopen, hclosed⟩ h
  | block opening inside closing rest hopening hclosing hmark hinside ih =>
    rw [block_append] at h
    obtain ⟨count, hrest⟩ := ih (fun token htoken => htext token (by simp [htoken]))
      fun hrest => h (hrest.prepend _)
    have hsame : isMark closing = isMark opening := hmark.trans (htext opening (by simp)).symm
    exact ⟨count, hrest.block hopening hclosing hsame hinside⟩

/-- Tokens of a text whose braces all have their partners are nested. -/
theorem nested_of_closesOpened (htext : ∀ token ∈ tokens, isMark token = false)
    (hclosed : ¬Unclosed tokens) (hopened : ClosesOpened tokens) : Nested tokens := by
  obtain ⟨count, hcount⟩ := exists_ends htext hclosed
  cases hcount with
  | nested h => exact h
  | closing hword hclosing =>
    obtain ⟨earlier, opening, inside, rfl, hopening, hinside⟩ := hopened _ _ _ rfl hclosing
    exact absurd hinside (hword.not_unmatched hopening)

end Lamina.Layout
