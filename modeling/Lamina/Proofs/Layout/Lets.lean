import Lamina.Proofs.Except
import Lamina.Proofs.Layout.Braced
import Lamina.Proofs.Layout.Walk

/-!
# The layout of nested lets

What layout writes for a page of nested lets, token by token. An `in` that goes on with a line closes
the block of its own let. An `in` that starts a line does so too, because it stands left of that
block; but then it is looked at once more, and closes the block around it if that is the block of
a let. So layout writes the braces that are meant on the pages that are clear, and no others.
-/

namespace Lamina.Layout

variable {out out' : List Token} {column inner : Nat} {outer : List Nat} {token : Placed}
  {value : Token} {isLet : Bool} {words : List Placed}

/-! ## One token -/

section

variable {column base depth : Nat} {isLet : Bool} {outer : List Nat} {rest : List Context}
  {token : Placed}

theorem startLine_goesOn (h : token.goesOn (column :: outer)) (hline : token.startsLine) :
    startLine token.column (.point 0) (.implicit column base isLet :: rest) =
      (.implicit column base isLet :: rest, []) := by
  have hcolumn : column < token.column := by
    simpa [Placed.goesOn, hline] using h
  rw [startLine, if_neg (by omega), if_neg (by omega)]

/-- What a token does that goes on with the innermost block. -/
theorem advance_goesOn (h : token.goesOn (column :: outer)) :
    advance ⟨.implicit column base isLet :: rest, depth, none⟩ token =
      let closed := closeBlocks (.implicit column base isLet :: rest) depth ⟨token.value, .point 0⟩
      (⟨closed.1, closed.2.1,
        if opensBlock token.value then some (token.value == .keyword .letKw) else none⟩,
        closed.2.2.map Located.value ++ [token.value]) := by
  cases hline : token.startsLine with
  | false => simp [advance, openBlock, hline]
  | true => simp [advance, openBlock, hline, startLine_goesOn h hline]

theorem opensBlock_of_isPlain (h : isPlain value) : opensBlock value = false := by
  unfold opensBlock
  split <;> simp_all [isPlain]

theorem closeBlocks_plain (h : isPlain value) (contexts : List Context) (place : Span) :
    closeBlocks contexts depth ⟨value, place⟩ = (contexts, depth, []) := by
  simp only [closeBlocks]
  split <;> simp_all [isPlain]

theorem advance_plain (hgo : token.goesOn (column :: outer)) (h : isPlain token.value) :
    advance ⟨.implicit column base isLet :: rest, depth, none⟩ token =
      (⟨.implicit column base isLet :: rest, depth, none⟩, [token.value]) := by
  rw [advance_goesOn hgo, closeBlocks_plain h, opensBlock_of_isPlain h]
  rfl

theorem endGroup_inside (hdepth : base < depth) (place : Span) :
    endGroup depth place (.implicit column base isLet :: rest) =
      (.implicit column base isLet :: rest, []) := by
  rw [endGroup, if_neg (by omega)]

theorem advance_comma (hgo : token.goesOn (column :: outer)) (h : token.value = .punct .comma)
    (hdepth : base < depth) :
    advance ⟨.implicit column base isLet :: rest, depth, none⟩ token =
      (⟨.implicit column base isLet :: rest, depth, none⟩, [token.value]) := by
  rw [advance_goesOn hgo, h]
  simp [closeBlocks, endGroup_inside hdepth, opensBlock]

theorem advance_opensGroup (hgo : token.goesOn (column :: outer)) (h : opensGroup token.value) :
    advance ⟨.implicit column base isLet :: rest, depth, none⟩ token =
      (⟨.implicit column base isLet :: rest, depth + 1, none⟩, [token.value]) := by
  rw [advance_goesOn hgo]
  unfold opensGroup at h
  split at h
  · simp_all [closeBlocks, opensBlock]
  · simp_all [closeBlocks, opensBlock]
  · cases h

theorem advance_closesGroup (hgo : token.goesOn (column :: outer)) (h : closesGroup token.value)
    (hdepth : base ≤ depth) :
    advance ⟨.implicit column base isLet :: rest, depth + 1, none⟩ token =
      (⟨.implicit column base isLet :: rest, depth, none⟩, [token.value]) := by
  have hgroup : ∀ place, endGroup (depth + 1) place (.implicit column base isLet :: rest) =
      (.implicit column base isLet :: rest, []) := endGroup_inside (by omega)
  rw [advance_goesOn hgo]
  unfold closesGroup at h
  split at h
  · simp_all [closeBlocks, opensBlock]
  · simp_all [closeBlocks, opensBlock]
  · cases h

theorem advance_let (hgo : token.goesOn (column :: outer)) (h : token.value = .keyword .letKw) :
    advance ⟨.implicit column base isLet :: rest, depth, none⟩ token =
      (⟨.implicit column base isLet :: rest, depth, some true⟩, [token.value]) := by
  rw [advance_goesOn hgo, h]
  rfl

/-- The first word of a block opens it. -/
theorem advance_first {contexts} (h : isPlain token.value) (hnest : mayNest token.column contexts) :
    advance ⟨contexts, depth, some isLet⟩ token =
      (⟨.implicit token.column depth isLet :: contexts, depth, none⟩,
        [.punct .lbrace, token.value]) := by
  have hbrace : token.value ≠ .punct .lbrace := by
    intro hvalue
    rw [hvalue] at h
    cases h
  simp [advance, openBlock, hbrace, hnest, closeBlocks_plain h, opensBlock_of_isPlain h, inserted]

/-- A word at the column of the block starts its next binding. -/
theorem advance_next (h : isPlain token.value) (hline : token.startsLine)
    (hcolumn : token.column = column) :
    advance ⟨.implicit column base isLet :: rest, depth, none⟩ token =
      (⟨.implicit column base isLet :: rest, depth, none⟩, [.punct .semi, token.value]) := by
  simp [advance, openBlock, hline, startLine, hcolumn, closeBlocks_plain h, opensBlock_of_isPlain h,
    inserted]

/-- An `in` that goes on with a line closes the block of its let. -/
theorem advance_in (h : token.value = .keyword .inKw) (hline : token.startsLine = false) :
    advance ⟨.implicit column base true :: rest, depth, none⟩ token =
      (⟨rest, depth, none⟩, [.punct .rbrace, token.value]) := by
  simp [advance, openBlock, hline, h, closeBlocks, opensBlock, inserted]

/-- An `in` that starts a line closes the block of its let, and the block around it if that is the
block of a let. -/
theorem advance_in_line (h : token.value = .keyword .inKw) (hline : token.startsLine)
    (hinner : token.column < inner) (hcolumn : column < token.column) (depth' : Nat)
    (isLet' : Bool) :
    advance ⟨.implicit inner depth' isLet' :: .implicit column base isLet :: rest, depth, none⟩ token =
      if isLet then (⟨rest, depth, none⟩, [.punct .rbrace, .punct .rbrace, token.value])
      else (⟨.implicit column base isLet :: rest, depth, none⟩, [.punct .rbrace, token.value]) := by
  have hlines : startLine token.column (.point 0) (.implicit inner depth' isLet' ::
      .implicit column base isLet :: rest) =
      (.implicit column base isLet :: rest, [inserted .rbrace (.point 0)]) := by
    rw [startLine, if_pos hinner, startLine, if_neg (by omega), if_neg (by omega)]
  cases isLet
  · simp [advance, openBlock, hline, hlines, h, closeBlocks, opensBlock, inserted]
  · simp [advance, openBlock, hline, hlines, h, closeBlocks, opensBlock, inserted]

end

/-! ## Runs of tokens -/

/-- Two lists of tokens with a common start, behind which they differ. -/
def Differ (out out' : List Token) : Prop :=
  ∃ common first more first' more', first ≠ first' ∧ out = common ++ first :: more ∧
    out' = common ++ first' :: more'

theorem Differ.ne (h : Differ out out') : out ≠ out' := by
  obtain ⟨common, first, more, first', more', hne, rfl, rfl⟩ := h
  simp [hne]

theorem Differ.append (h : Differ out out') (rest rest' : List Token) :
    Differ (out ++ rest) (out' ++ rest') := by
  obtain ⟨common, first, more, first', more', hne, rfl, rfl⟩ := h
  exact ⟨common, first, more ++ rest, first', more' ++ rest', hne, by simp, by simp⟩

theorem Differ.behind (h : Differ out out') (common : List Token) :
    Differ (common ++ out) (common ++ out') := by
  obtain ⟨common', first, more, first', more', hne, rfl, rfl⟩ := h
  exact ⟨common ++ common', first, more, first', more', hne, by simp, by simp⟩

/-- Layout writes `out` for the tokens and knows `st'` behind them, if the page is clear. If it is
not, what layout writes comes to differ from `out`. -/
def Writes (clear : Bool) (st st' : Blocks) (tokens : List Placed) (out : List Token) : Prop :=
  if clear then walk st tokens = (st', out) else Differ (walk st tokens).2 out

namespace Writes

variable {clear clear' : Bool} {st st' st'' : Blocks} {tokens more : List Placed}

theorem cons (h : advance st token = (st', out)) (hmore : Writes clear st' st'' more out') :
    Writes clear st st'' (token :: more) (out ++ out') := by
  cases clear with
  | true =>
    show walk st (token :: more) = _
    rw [walk, h, show walk st' more = _ from hmore]
  | false =>
    show Differ (walk st (token :: more)).2 _
    rw [walk, h]
    exact Differ.behind hmore out

theorem append (h : Writes clear st st' tokens out) (hmore : Writes clear' st' st'' more out') :
    Writes (clear && clear') st st'' (tokens ++ more) (out ++ out') := by
  cases clear with
  | true =>
    have hfirst : walk st tokens = (st', out) := h
    cases clear' with
    | true =>
      show walk st (tokens ++ more) = _
      rw [walk_append, hfirst, show walk st' more = _ from hmore]
    | false =>
      show Differ (walk st (tokens ++ more)).2 _
      rw [walk_append, hfirst]
      exact Differ.behind hmore out
  | false =>
    show Differ (walk st (tokens ++ more)).2 _
    rw [walk_append]
    exact Differ.append h _ _

end Writes

/-! ## Blocks -/

theorem Bindings.isPlain_name (block : Bindings) (h : block.isLaid column outer) :
    isPlain block.name.value ∧ block.name.column = column := by
  cases block <;> simp_all [Bindings.isLaid, Bindings.name]

theorem mayNest_of_lt {base rest} (h : column < inner) :
    mayNest inner (.implicit column base isLet :: rest) := by
  simp [mayNest, enclosingColumn, h]

/-- The block of a let opens right of the block around it. -/
theorem Bindings.advance_name (block : Bindings) (base depth : Nat) (isLet : Bool)
    (rest : List Context) (hcolumns : (column :: outer).all (· < block.column))
    (hlaid : block.isLaid block.column (column :: outer)) :
    advance ⟨.implicit column base isLet :: rest, depth, some true⟩ block.name =
      (⟨.implicit block.column depth true :: .implicit column base isLet :: rest, depth, none⟩,
        [.punct .lbrace, block.name.value]) := by
  rw [List.all_cons, Bool.and_eq_true, decide_eq_true_eq] at hcolumns
  exact advance_first (block.isPlain_name hlaid).1 (mayNest_of_lt hcolumns.1)

/-- An `in` closes the block of its own let. If it starts a line in the block of another let, it
closes that block too: the second brace stands where the word `in` is expected. -/
theorem writes_in (base depth : Nat) (isLet : Bool) (rest : List Context)
    (h : token.value = .keyword .inKw)
    (hlaid : (!token.startsLine ||
      token.column < inner && (column :: outer).all (· < token.column)) = true) :
    Writes (!(token.startsLine && isLet))
      ⟨.implicit inner depth true :: .implicit column base isLet :: rest, depth, none⟩
      ⟨.implicit column base isLet :: rest, depth, none⟩ [token]
      [.punct .rbrace, token.value] := by
  cases hline : token.startsLine with
  | false => exact .cons (advance_in h hline) rfl
  | true =>
    simp only [hline, Bool.not_true, Bool.false_or, Bool.and_eq_true, List.all_cons,
      decide_eq_true_eq] at hlaid
    cases isLet with
    | false => exact .cons (advance_in_line h hline hlaid.1 hlaid.2.1 depth true) rfl
    | true =>
      show Differ (walk _ [token]).2 _
      rw [walk, advance_in_line h hline hlaid.1 hlaid.2.1 depth true]
      exact ⟨[.punct .rbrace], .punct .rbrace, _, token.value, [], by simp [h], rfl, rfl⟩

mutual

/-- On a clear page layout writes a phrase with its blocks in braces, and knows the same behind it as
before it; on another one it does not. -/
theorem Phrase.writes (p : Phrase) {column base depth : Nat} (isLet : Bool) {grouped outer}
    (rest : List Context) (hlaid : p.isLaid (column :: outer) grouped) (hdepth : base ≤ depth)
    (hgroup : grouped → base < depth) :
    Writes (p.isClear isLet) ⟨.implicit column base isLet :: rest, depth, none⟩
      ⟨.implicit column base isLet :: rest, depth, none⟩ p.placed p.braced := by
  cases p with
  | done => exact rfl
  | word token more =>
    simp only [Phrase.isLaid, Bool.and_eq_true, Bool.or_eq_true, decide_eq_true_eq] at hlaid
    obtain ⟨⟨hgo, hword⟩, hmore⟩ := hlaid
    have hrest := more.writes isLet rest hmore hdepth hgroup
    rcases hword with hplain | ⟨hgrouped, hcomma⟩
    · exact .cons (advance_plain hgo hplain) hrest
    · exact .cons (advance_comma hgo hcomma (hgroup hgrouped)) hrest
  | group opening inside closing more =>
    simp only [Phrase.isLaid, Bool.and_eq_true] at hlaid
    obtain ⟨⟨⟨⟨⟨hopening, hopens⟩, hinside⟩, hclosing⟩, hcloses⟩, hmore⟩ := hlaid
    have hinner := inside.writes isLet rest hinside (show base ≤ depth + 1 by omega)
      fun _ => by omega
    have hrest := more.writes isLet rest hmore hdepth hgroup
    exact .cons (advance_opensGroup hopening hopens)
      (hinner.append (.cons (advance_closesGroup hclosing hcloses hdepth) hrest))
  | letIn letWord block inWord body =>
    simp only [Phrase.isLaid, Bool.and_eq_true, decide_eq_true_eq] at hlaid
    obtain ⟨⟨⟨⟨⟨⟨hletWord, hlet⟩, hcolumns⟩, hblock⟩, hin⟩, hinWord⟩, hbody⟩ := hlaid
    have hbindings := block.writes hblock
      (block.advance_name base depth isLet rest hcolumns hblock)
    have hclose := writes_in base depth isLet rest hin hinWord
    have hrest := body.writes isLet rest hbody hdepth hgroup
    rw [Phrase.isClear, Bool.and_assoc]
    exact .cons (advance_let hletWord hlet) (hbindings.append (hclose.append hrest))

/-- On a clear page layout writes the bindings of a block with semicolons between them. What it
writes before the first word, a brace or a semicolon, is given. -/
theorem Bindings.writes (block : Bindings) {column depth isLet outer rest st mark}
    (hlaid : block.isLaid column outer) (hfirst : advance st block.name =
      (⟨.implicit column depth isLet :: rest, depth, none⟩, [mark, block.name.value])) :
    Writes (block.isClear isLet) st ⟨.implicit column depth isLet :: rest, depth, none⟩ block.placed
      (mark :: block.braced) := by
  cases block with
  | last name value =>
    simp only [Bindings.isLaid, Bool.and_eq_true] at hlaid
    exact .cons hfirst (value.writes isLet rest hlaid.2 (Nat.le_refl depth) nofun)
  | cons name value more =>
    simp only [Bindings.isLaid, Bool.and_eq_true] at hlaid
    obtain ⟨⟨⟨-, hvalue⟩, hline⟩, hmore⟩ := hlaid
    obtain ⟨hplain, hcolumn⟩ := more.isPlain_name hmore
    exact .cons hfirst (.append (value.writes isLet rest hvalue (Nat.le_refl depth) nofun)
      (more.writes hmore (advance_next hplain hline hcolumn)))

end

/-! ## Tokens that layout keeps -/

/-- Tokens of a page and the same tokens with braces, which layout keeps. -/
structure Kept (tokens : List Placed) (out : List Token) : Prop where
  ne_eof : ∀ token ∈ tokens, token.value ≠ .eof
  neutral : Neutral out

namespace Kept

variable {tokens : List Placed}

theorem cons (h : isLoose token.value) (hrest : Kept tokens out) :
    Kept (token :: tokens) (token.value :: out) :=
  ⟨List.forall_mem_cons.mpr ⟨((isLoose_iff _).mp h).2.2.1, hrest.ne_eof⟩, .cons h hrest.neutral⟩

theorem append {tokens'} (h : Kept tokens out) (h' : Kept tokens' out') :
    Kept (tokens ++ tokens') (out ++ out') :=
  ⟨List.forall_mem_append.mpr ⟨h.ne_eof, h'.ne_eof⟩, h.neutral.append h'.neutral⟩

end Kept

theorem isLoose_of_isPlain (h : isPlain value) : isLoose value := by
  unfold isLoose
  split
  all_goals simp_all [isPlain, opensBlock_of_isPlain]

theorem isLoose_of_opensGroup (h : opensGroup value) : isLoose value := by
  unfold opensGroup at h
  split at h
  · rfl
  · rfl
  · cases h

theorem isLoose_of_closesGroup (h : closesGroup value) : isLoose value := by
  unfold closesGroup at h
  split at h
  · rfl
  · rfl
  · cases h

mutual

theorem Phrase.kept (p : Phrase) {columns grouped} (h : p.isLaid columns grouped) :
    Kept p.placed p.braced := by
  cases p with
  | done => exact ⟨nofun, .nil⟩
  | word token rest =>
    simp only [Phrase.isLaid, Bool.and_eq_true, Bool.or_eq_true, decide_eq_true_eq] at h
    refine .cons ?_ (rest.kept h.2)
    rcases h.1.2 with hplain | ⟨-, hcomma⟩
    · exact isLoose_of_isPlain hplain
    · rw [hcomma]
      rfl
  | group opening inside closing rest =>
    simp only [Phrase.isLaid, Bool.and_eq_true] at h
    obtain ⟨⟨⟨⟨⟨-, hopens⟩, hinside⟩, -⟩, hcloses⟩, hrest⟩ := h
    exact .cons (isLoose_of_opensGroup hopens)
      ((inside.kept hinside).append (.cons (isLoose_of_closesGroup hcloses) (rest.kept hrest)))
  | letIn letWord block inWord body =>
    simp only [Phrase.isLaid, Bool.and_eq_true, decide_eq_true_eq] at h
    obtain ⟨⟨⟨⟨⟨⟨-, hlet⟩, -⟩, hblock⟩, hin⟩, -⟩, hbody⟩ := h
    have hbindings := block.kept hblock
    have hrest : Kept (inWord :: body.placed) (inWord.value :: body.braced) :=
      .cons (by rw [hin]; rfl) (body.kept hbody)
    refine ⟨?_, ?_⟩
    · refine List.forall_mem_cons.mpr ⟨by simp [hlet], ?_⟩
      exact List.forall_mem_append.mpr ⟨hbindings.ne_eof, hrest.ne_eof⟩
    · unfold Phrase.braced
      rw [hlet]
      exact .block hbindings.neutral hrest.neutral

theorem Bindings.kept (block : Bindings) {column outer} (h : block.isLaid column outer) :
    Kept block.placed block.braced := by
  cases block with
  | last name value =>
    simp only [Bindings.isLaid, Bool.and_eq_true] at h
    exact .cons (isLoose_of_isPlain h.1.1) (value.kept h.2)
  | cons name value more =>
    simp only [Bindings.isLaid, Bool.and_eq_true] at h
    obtain ⟨⟨⟨⟨hplain, -⟩, hvalue⟩, -⟩, hmore⟩ := h
    have hrest := more.kept hmore
    have hsemi : Kept more.placed (.punct .semi :: more.braced) :=
      ⟨hrest.ne_eof, .cons rfl hrest.neutral⟩
    exact .cons (isLoose_of_isPlain hplain) ((value.kept hvalue).append hsemi)

end

theorem kept_words (h : words.all (isPlain ·.value)) : Kept words (words.map Placed.value) := by
  induction words with
  | nil => exact ⟨nofun, .nil⟩
  | cons word rest ih =>
    simp only [List.all_cons, Bool.and_eq_true] at h
    exact .cons (isLoose_of_isPlain h.1) (ih h.2)

/-! ## Pages -/

theorem advance_top {pending} (hclose : closeBlocks [] 0 ⟨token.value, .point 0⟩ = ([], 0, []))
    (hpending : (if opensBlock token.value then some (token.value == .keyword .letKw) else none) =
      pending) : advance ⟨[], 0, none⟩ token = (⟨[], 0, pending⟩, [token.value]) := by
  cases hline : token.startsLine with
  | false => simp [advance, openBlock, hline, hclose, hpending]
  | true => simp [advance, openBlock, hline, startLine, hclose, hpending]

theorem writes_words (h : words.all (isPlain ·.value)) :
    Writes true ⟨[], 0, none⟩ ⟨[], 0, none⟩ words (words.map Placed.value) := by
  induction words with
  | nil => exact rfl
  | cons word rest ih =>
    simp only [List.all_cons, Bool.and_eq_true] at h
    refine .cons (advance_top (closeBlocks_plain h.1 [] _) ?_) (ih h.2)
    rw [opensBlock_of_isPlain h.1]
    rfl

/-- A header, taken apart. -/
theorem isHeader_cases {header} (h : isHeader header) :
    header = [] ∨ ∃ first words last, header = first :: (words ++ [last]) ∧
      first.value = .keyword .moduleKw ∧ words.all (isPlain ·.value) ∧
      last.value = .keyword .whereKw := by
  cases header with
  | nil => exact .inl rfl
  | cons first rest =>
    simp only [isHeader, Bool.and_eq_true, decide_eq_true_eq] at h
    obtain ⟨⟨hfirst, hlast⟩, hwords⟩ := h
    rcases List.eq_nil_or_concat rest with rfl | ⟨words, last, rfl⟩
    · simp at hlast
    · rw [List.concat_eq_append] at hlast hwords ⊢
      rw [List.getLast?_concat, Option.any_some, decide_eq_true_eq] at hlast
      rw [List.dropLast_concat] at hwords
      exact .inr ⟨first, words, last, rfl, hfirst, hwords, hlast⟩

namespace Page

variable {page : Page}

/-- What is known before the first token of a page. -/
def start (page : Page) : Blocks := ⟨[], 0, if page.header = [] then some false else none⟩

/-- A header leaves the block of the module to open. -/
theorem writes_header (h : page.isLaid) :
    Writes true page.start ⟨[], 0, some false⟩ page.header (page.header.map Placed.value) := by
  simp only [isLaid, Bool.and_eq_true] at h
  unfold start
  rcases isHeader_cases h.1.1 with hnil | ⟨first, words, last, hheader, hfirst, hwords, hlast⟩
  · rw [hnil]
    exact rfl
  · have hmodule : advance ⟨[], 0, none⟩ first = (⟨[], 0, none⟩, [first.value]) :=
      advance_top (by rw [hfirst]; rfl) (by rw [hfirst]; rfl)
    have hwhere : advance ⟨[], 0, none⟩ last = (⟨[], 0, some false⟩, [last.value]) :=
      advance_top (by rw [hlast]; rfl) (by rw [hlast]; rfl)
    rw [hheader, if_neg (by simp), List.map_cons, List.map_append]
    exact .cons hmodule ((writes_words hwords).append (.cons hwhere rfl))

theorem advance_name (h : page.isLaid) :
    advance ⟨[], 0, some false⟩ page.block.name =
      (⟨[.implicit page.block.column 0 false], 0, none⟩,
        [.punct .lbrace, page.block.name.value]) := by
  simp only [isLaid, Bool.and_eq_true] at h
  exact advance_first (page.block.isPlain_name h.1.2).1 rfl

theorem writes (h : page.isLaid) :
    Writes page.isClear page.start ⟨[.implicit page.block.column 0 false], 0, none⟩
      (page.header ++ page.block.placed)
      (page.header.map Placed.value ++ .punct .lbrace :: page.block.braced) := by
  have hblock := h
  simp only [isLaid, Bool.and_eq_true] at hblock
  exact (writes_header h).append (page.block.writes hblock.1.2 (advance_name h))

theorem ne_eof (h : page.isLaid) : ∀ token ∈ page.header ++ page.block.placed,
    token.value ≠ .eof := by
  simp only [isLaid, Bool.and_eq_true] at h
  refine List.forall_mem_append.mpr ⟨?_, (page.block.kept h.1.2).ne_eof⟩
  rcases isHeader_cases h.1.1 with hnil | ⟨first, words, last, hheader, hfirst, hwords, hlast⟩
  · simp [hnil]
  · rw [hheader, List.forall_mem_cons, List.forall_mem_append]
    exact ⟨by simp [hfirst], (kept_words hwords).ne_eof, by simp [hlast]⟩

/-- With its blocks in braces, a page is a text that layout keeps. -/
theorem braced_braced (h : page.isLaid) : Braced 0 false page.braced ∧
    ∃ first rest, page.braced = first :: rest ∧
      (first = .keyword .moduleKw ∨ first = .punct .lbrace) := by
  simp only [isLaid, Bool.and_eq_true] at h
  have hblock := (page.block.kept h.1.2).neutral
  unfold braced
  rcases isHeader_cases h.1.1 with hnil | ⟨first, words, last, hheader, hfirst, hwords, hlast⟩
  · rw [hnil]
    exact ⟨braced_braces false hblock ⟨rfl, rfl⟩, _, _, rfl, .inr rfl⟩
  · have hneutral : Neutral (.keyword .moduleKw :: (words.map Placed.value ++
        .keyword .whereKw :: .punct .lbrace :: (page.block.braced ++ [.punct .rbrace]))) :=
      .cons rfl ((kept_words hwords).neutral.append (.block hblock .nil))
    rw [hheader]
    simp only [List.map_cons, List.map_append, hfirst, hlast, List.map_nil, List.append_assoc,
      List.cons_append, List.nil_append]
    exact ⟨hneutral.braced, _, _, rfl, .inl rfl⟩

end Page

/-! ## Texts -/

theorem onPageFrom_values (index : LineIndex) (line : Nat) (tokens : List (Located Token)) :
    (onPageFrom index line tokens).map Placed.value = tokens.map Located.value := by
  induction tokens generalizing line with
  | nil => rfl
  | cons token rest ih => simp only [onPageFrom, List.map_cons, ih]

theorem onPageFrom_concat (index : LineIndex) (line : Nat) (tokens : List (Located Token))
    (last : Located Token) : ∃ stop, stop.value = last.value ∧
      onPageFrom index line (tokens ++ [last]) = onPageFrom index line tokens ++ [stop] := by
  induction tokens generalizing line with
  | nil => exact ⟨_, rfl, rfl⟩
  | cons token rest ih =>
    obtain ⟨stop, hstop, hrest⟩ := ih (index.position token.span.start).line
    exact ⟨stop, hstop, by simp only [List.cons_append, onPageFrom, hrest]⟩

theorem start_line (tokens : List (Located Token)) : (start tokens).line = 0 := by
  unfold start
  split <;> rfl

theorem start_of_isPlain {token} (h : isPlain token.value) (rest : List (Located Token)) :
    start (token :: rest) = ⟨[], 0, 0, some false⟩ := by
  unfold start
  split <;> simp_all [isPlain]

theorem start_of_module {token} (h : token.value = .keyword .moduleKw) (rest : List (Located Token))
    :
    start (token :: rest) = ⟨[], 0, 0, none⟩ := by
  obtain ⟨_, span⟩ := token
  cases h
  rfl

theorem Bindings.placed_eq_cons (block : Bindings) : ∃ more, block.placed = block.name :: more := by
  cases block <;> exact ⟨_, rfl⟩

namespace Page

variable {page : Page} {source : String} {tokens : List (Located Token)}

theorem blocks_start (hpage : onPage source tokens = page.placed) (h : page.isLaid) :
    (Layout.start tokens).blocks = page.start := by
  simp only [isLaid, Bool.and_eq_true] at h
  have hvalues := congrArg (List.map Placed.value) hpage
  rw [onPage, onPageFrom_values, placed] at hvalues
  unfold start
  rcases isHeader_cases h.1.1 with hnil | ⟨first, words, last, hheader, hfirst, -⟩
  · obtain ⟨more, hblock⟩ := page.block.placed_eq_cons
    rw [hnil, hblock] at hvalues
    obtain ⟨token, rest, rfl, hvalue, -⟩ := List.map_eq_cons_iff.mp hvalues
    have hplain := (page.block.isPlain_name h.1.2).1
    rw [← hvalue] at hplain
    rw [start_of_isPlain hplain, hnil]
    rfl
  · rw [hheader] at hvalues
    obtain ⟨token, rest, rfl, hvalue, -⟩ := List.map_eq_cons_iff.mp hvalues
    rw [start_of_module (hvalue.trans hfirst), hheader]
    rfl

/-- What layout writes for a page, in terms of the walk over it. -/
theorem resolve_walk (hpage : onPage source tokens = page.placed) (h : page.isLaid) :
    let found := walk page.start (page.header ++ page.block.placed)
    ∃ place, (resolve source tokens).map (List.map Located.value) =
      (endInput place found.1.contexts).map fun closed =>
        found.2 ++ ((if found.1.pending.isSome then [.punct .lbrace, .punct .rbrace] else []) ++
          closed.map Located.value ++ [.eof]) := by
  have hblocks := blocks_start hpage h
  have hline := start_line tokens
  have hstop := h
  simp only [isLaid, Bool.and_eq_true, decide_eq_true_eq] at hstop
  rcases List.eq_nil_or_concat tokens with rfl | ⟨init, last, rfl⟩
  · simp [onPage, onPageFrom, placed] at hpage
  · rw [List.concat_eq_append] at *
    obtain ⟨stop, hlast, hconcat⟩ := onPageFrom_concat (.ofText source) 0 init last
    rw [onPage, hconcat, placed] at hpage
    obtain ⟨hinit, hstops⟩ := List.append_inj' hpage rfl
    rw [List.cons.injEq] at hstops
    have heof : last.value = .eof := by
      rw [← hlast, hstops.1, hstop.2]
    have hne : ∀ token ∈ init, token.value ≠ .eof := by
      intro token htoken
      have hvalue : token.value ∈ (page.header ++ page.block.placed).map Placed.value := by
        rw [← hinit, onPageFrom_values]
        exact List.mem_map_of_mem htoken
      obtain ⟨word, hword, hvalue⟩ := List.mem_map.mp hvalue
      rw [← hvalue]
      exact ne_eof h word hword
    have hwalk := resolveFrom_walk (.ofText source) (Layout.start (init ++ [last])) hne heof
    rw [hblocks, hline, hinit] at hwalk
    exact ⟨last.span, hwalk⟩

/-- **Layout writes the braces that a page means just if the page is clear.** -/
theorem resolve_values_iff (hpage : onPage source tokens = page.placed) (h : page.isLaid) :
    (resolve source tokens).map (List.map Located.value) = .ok (page.braced ++ [.eof]) ↔
      page.isClear := by
  obtain ⟨place, hresolve⟩ := resolve_walk hpage h
  have hbraced : page.braced ++ [.eof] = (page.header.map Placed.value ++
      .punct .lbrace :: page.block.braced) ++ [.punct .rbrace, .eof] := by
    simp [braced]
  have hwrites := writes h
  rw [hresolve, hbraced]
  cases hclear : page.isClear with
  | true =>
    rw [hclear] at hwrites
    rw [show walk _ _ = _ from hwrites]
    simp [endInput, Except.map, inserted]
  | false =>
    rw [hclear] at hwrites
    simp only [Bool.false_eq_true, iff_false]
    intro hok
    obtain ⟨closed, -, hout⟩ := ok_of_map hok
    exact (Differ.append hwrites _ _).ne hout

end Page

end Lamina.Layout
