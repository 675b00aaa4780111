import Lamina.Proofs.Token.Lexeme

/-!
# Tilings

A text is tiled by the lexemes of its tokens and the gaps between them, which are made up of blanks
and comments (`Tiles`). The lexer finds the tokens of every tiling, and the tokens that it finds
tile the text (`lexFrom_ok_iff`).
-/

namespace Lamina.Lexer

variable {pos dashes : Nat} {cs text after inside rest : List Char} {next : Cursor} {c : Char}
  {tokens : List (Located Token)}

/-! ## Gaps -/

/-- The text between the marks of a block comment. A comment that starts in it ends in it. -/
inductive Inside : List Char → Prop
  | nil : Inside []
  | char {c : Char} {rest : List Char} (hopen : ¬ ['{', '-'] <+: c :: (rest ++ ['-', '}']))
      (hclose : ¬ ['-', '}'] <+: c :: (rest ++ ['-', '}'])) (h : Inside rest) : Inside (c :: rest)
  | nested {inner rest : List Char} (hinner : Inside inner) (h : Inside rest) :
      Inside ('{' :: '-' :: (inner ++ '-' :: '}' :: rest))

/-- A text between two tokens that is followed by `after`. -/
inductive Gap : List Char → List Char → Prop
  | nil {after : List Char} : Gap [] after
  | blank {c : Char} {text after : List Char} (hc : Text.isBlank c) (h : Gap text after) :
      Gap (c :: text) after
  /-- Dashes that are no operator start a comment up to the end of the line. -/
  | line {dashes body text after} (hdashes : 2 ≤ dashes) (hstart : Stops isSymbol body)
      (hbody : ∀ c ∈ body, c ≠ '\n') (hend : ∀ c ∈ (text ++ after).head?, c = '\n')
      (h : Gap text after) : Gap (List.replicate dashes '-' ++ (body ++ text)) after
  | block {inside text after : List Char} (hinside : Inside inside) (h : Gap text after) :
      Gap ('{' :: '-' :: (inside ++ '-' :: '}' :: text)) after

theorem Gap.blanks {run : List Char} (hrun : ∀ c ∈ run, Text.isBlank c) (h : Gap text after) :
    Gap (run ++ text) after := by
  induction run with
  | nil => exact h
  | cons c cs ih =>
    obtain ⟨hc, hcs⟩ := List.forall_mem_cons.mp hrun
    exact .blank hc (ih hcs)

/-! ## Block comments -/

/-- The rest of a comment with `depth` further comments open around it. -/
inductive Closes : Nat → List Char → Prop
  | last {inside : List Char} (h : Inside inside) : Closes 0 (inside ++ ['-', '}'])
  | more {depth : Nat} {inside rest : List Char} (h : Inside inside) (hrest : Closes depth rest) :
      Closes (depth + 1) (inside ++ '-' :: '}' :: rest)

namespace Closes

variable {depth : Nat} {taken : List Char}

theorem char {c : Char} (hopen : ¬ ['{', '-'] <+: c :: taken) (hclose : ¬ ['-', '}'] <+: c :: taken)
    (h : Closes depth taken) : Closes depth (c :: taken) := by
  -- both marks have two characters, so that what the comment ends with decides
  have hinside {inside rest : List Char} (heq : taken = inside ++ '-' :: '}' :: rest)
      (h : Inside inside) : Inside (c :: inside) := by
    have hfront : c :: (inside ++ ['-', '}']) <+: c :: taken := by
      rw [heq, List.prefix_cons_inj, List.prefix_append_right_inj]
      exact List.prefix_append ['-', '}'] rest
    exact .char (fun h => hopen (h.trans hfront)) (fun h => hclose (h.trans hfront)) h
  cases h with
  | last h => exact .last (hinside rfl h)
  | more h hrest => exact .more (hinside rfl h) hrest

/-- A comment inside that ends, and then the rest. -/
theorem nested (h : Closes (depth + 1) taken) : Closes depth ('{' :: '-' :: taken) := by
  cases h with
  | more hinner hrest =>
    have happend (inner inside rest : List Char) :
        '{' :: '-' :: (inner ++ '-' :: '}' :: (inside ++ rest)) =
          '{' :: '-' :: (inner ++ '-' :: '}' :: inside) ++ rest := by simp
    cases hrest with
    | last h =>
      rw [happend]
      exact .last (.nested hinner h)
    | more h hrest =>
      rw [happend]
      exact .more (.nested hinner h) hrest

end Closes

theorem closes_of_closeComment {depth : Nat} (h : closeComment depth pos cs = some next) :
    ∃ taken, Cursor.Reads ⟨pos, cs⟩ taken next ∧ Closes depth taken := by
  fun_induction closeComment depth pos cs with
  | case1 => cases h
  | case2 depth pos cs ih =>
    obtain ⟨taken, hreads, hcloses⟩ := ih h
    exact ⟨_, .cons (.cons hreads), hcloses.nested⟩
  | case3 pos cs =>
    cases h
    exact ⟨_, .cons (.cons (.refl _)), .last .nil⟩
  | case4 depth pos cs ih =>
    obtain ⟨taken, hreads, hcloses⟩ := ih h
    exact ⟨_, .cons (.cons hreads), .more .nil hcloses⟩
  | case5 depth pos c cs hopen hlast hmore ih =>
    obtain ⟨taken, hreads, hcloses⟩ := ih h
    have hcs : cs = taken ++ next.rest := hreads.rest
    refine ⟨_, .cons hreads, hcloses.char ?_ ?_⟩
    · rintro ⟨tail, heq⟩
      cases heq
      exact hopen _ rfl (by rw [hcs]; rfl)
    · rintro ⟨tail, heq⟩
      cases heq
      cases depth with
      | zero => exact hlast _ rfl rfl (by rw [hcs]; rfl)
      | succ depth => exact hmore depth _ rfl rfl (by rw [hcs]; rfl)

/-- The end of a comment is looked for behind everything that is inside it. -/
theorem closeComment_inside (h : Inside inside) (depth pos : Nat) (rest : List Char) :
    closeComment depth pos (inside ++ '-' :: '}' :: rest) =
      closeComment depth (pos + byteLength inside) ('-' :: '}' :: rest) := by
  induction h generalizing depth pos rest with
  | nil => rfl
  | @char c inside hopen hclose _ ih =>
    have hfront : c :: (inside ++ ['-', '}']) <+: c :: (inside ++ '-' :: '}' :: rest) := by
      rw [List.prefix_cons_inj, List.prefix_append_right_inj]
      exact List.prefix_append ['-', '}'] rest
    have hno {mark : List Char} (hmark : ¬ mark <+: c :: (inside ++ ['-', '}']))
        (hlen : mark.length = 2) : ¬ mark <+: c :: (inside ++ '-' :: '}' :: rest) := by
      intro h
      refine hmark (List.prefix_of_prefix_length_le h hfront ?_)
      simp [hlen]
    rw [List.cons_append, closeComment.eq_5, ih, byteLength, Nat.add_assoc]
    · rintro cs rfl heq
      exact hno hopen rfl ⟨cs, by rw [heq]; rfl⟩
    · rintro cs _ rfl heq
      exact hno hclose rfl ⟨cs, by rw [heq]; rfl⟩
    · rintro _ cs _ rfl heq
      exact hno hclose rfl ⟨cs, by rw [heq]; rfl⟩
  | @nested inner inside _ _ ihinner ih =>
    have hmark : byteLength ['{', '-'] = 2 ∧ byteLength ['-', '}'] = 2 := ⟨rfl, rfl⟩
    calc closeComment depth pos
          ('{' :: '-' :: (inner ++ '-' :: '}' :: inside) ++ '-' :: '}' :: rest)
        = closeComment (depth + 1) (pos + 2)
            (inner ++ '-' :: '}' :: (inside ++ '-' :: '}' :: rest)) := by
          simp [closeComment]
      _ = closeComment depth (pos + 2 + byteLength inner + 2)
            (inside ++ '-' :: '}' :: rest) := by
          rw [ihinner, closeComment]
      _ = _ := by
          rw [ih]
          congr 1
          show _ = pos + byteLength (['{', '-'] ++ (inner ++ (['-', '}'] ++ inside)))
          simp only [byteLength_append, hmark]
          omega

/-! ## Line comments -/

theorem dropWhile_dashes {tail} (h : Stops isSymbol tail) : tail.dropWhile (· == '-') = tail := by
  cases tail with
  | nil => rfl
  | cons c cs =>
    have hdash : c ≠ '-' := by
      rintro rfl
      exact absurd (h '-' rfl) (by decide)
    simp [hdash]

/-- Two or more dashes start a comment where they are no part of a longer operator. -/
theorem startsLineComment_iff (cs : List Char) : startsLineComment cs ↔
    ∃ dashes tail, 2 ≤ dashes ∧ Stops isSymbol tail ∧ cs = List.replicate dashes '-' ++ tail := by
  constructor
  · intro h
    unfold startsLineComment at h
    split at h
    · rename_i cs
      have hdashes : cs.takeWhile (· == '-') =
          List.replicate (cs.takeWhile (· == '-')).length '-' := by
        refine List.eq_replicate_iff.mpr ⟨rfl, fun c hc => ?_⟩
        exact beq_iff_eq.mp (List.all_eq_true.mp List.all_takeWhile c hc)
      refine ⟨(cs.takeWhile (· == '-')).length + 2, cs.dropWhile (· == '-'), by omega, ?_, ?_⟩
      · intro c hc
        obtain ⟨tail, htail⟩ := List.head?_eq_some_iff.mp hc
        simpa [htail] using h
      · rw [List.replicate_succ, List.replicate_succ, List.cons_append, List.cons_append, ← hdashes,
          List.takeWhile_append_dropWhile]
    · cases h
  · rintro ⟨dashes, tail, hdashes, htail, rfl⟩
    obtain ⟨more, rfl⟩ : ∃ more, dashes = more + 2 := ⟨dashes - 2, by omega⟩
    rw [List.replicate_succ, List.replicate_succ, List.cons_append, List.cons_append,
      startsLineComment, List.dropWhile_append_of_pos (by simp), dropWhile_dashes htail]
    cases tail with
    | nil => rfl
    | cons c cs => simpa using htail c rfl

/-- A comment and what is left of the text behind it. -/
theorem takeWhile_line (tail : List Char) :
    (List.replicate dashes '-' ++ tail).takeWhile (· != '\n') =
      List.replicate dashes '-' ++ tail.takeWhile (· != '\n') :=
  List.takeWhile_append_of_pos (by simp)

/-! ## Gaps and the lexer -/

/-- What the lexer skips goes in front of any gap. -/
theorem gap_of_scanPiece (h : scanPiece pos c cs = .ok (none, next)) :
    ∃ taken, Cursor.Reads ⟨pos, c :: cs⟩ taken next ∧
      ∀ text after, next.rest = text ++ after → Gap text after → Gap (taken ++ text) after := by
  unfold scanPiece at h
  split at h
  · rename_i hblank
    cases h
    obtain ⟨hrun, _⟩ := scanRun_longest Text.isBlank (pos + c.utf8Size) cs
    refine ⟨_, .cons (scanRun_reads Text.isBlank _ cs), fun text after _ hgap => ?_⟩
    exact .blanks (List.forall_mem_cons.mpr ⟨hblank, hrun⟩) hgap
  split at h
  · rename_i hopen
    obtain ⟨rfl, hdash⟩ := hopen
    obtain ⟨rest, rfl⟩ : ∃ rest, cs = '-' :: rest := List.head?_eq_some_iff.mp hdash
    split at h
    · cases h
    · rename_i hcomment
      cases h
      obtain ⟨taken, hreads, hcloses⟩ := closes_of_closeComment hcomment
      cases hcloses with
      | @last inside hinside =>
        refine ⟨_, .cons (.cons hreads), fun text after _ hgap => ?_⟩
        have hblock := Gap.block hinside hgap
        simpa using hblock
  split at h
  · rename_i hline
    cases h
    obtain ⟨dashes, tail, hdashes, htail, heq⟩ := (startsLineComment_iff _).mp hline
    have hc : c = '-' := by
      obtain ⟨more, rfl⟩ : ∃ more, dashes = more + 1 := ⟨dashes - 1, by omega⟩
      exact (List.cons.inj heq).1
    have hreads : Cursor.Reads ⟨pos, c :: cs⟩ _ _ := .cons (scanRun_reads (· != '\n') _ cs)
    have htaken : c :: (scanRun (· != '\n') (pos + c.utf8Size) cs).1 =
        List.replicate dashes '-' ++ tail.takeWhile (· != '\n') := by
      rw [← takeWhile_line, ← heq, hc]
      rfl
    rw [htaken] at hreads
    refine ⟨_, hreads, fun text after hrest hgap => ?_⟩
    rw [List.append_assoc]
    refine .line hdashes ?_ ?_ ?_ hgap
    · rw [← List.takeWhile_append_dropWhile (p := (· != '\n')) (l := tail)] at htail
      exact htail.of_append
    · intro d hd
      simpa using List.all_eq_true.mp List.all_takeWhile d hd
    · intro d hd
      rw [← hrest] at hd
      simpa using stops_dropWhile (· != '\n') cs d hd
  · split at h <;> cases h

theorem lexFrom_piece {piece} (h : scanPiece pos c cs = .ok (piece, next))
    (hnext : lexFrom next = .ok tokens) :
    lexFrom ⟨pos, c :: cs⟩ =
      .ok ((piece.map fun token => ⟨token, ⟨pos, next.pos⟩⟩).toList ++ tokens) := by
  rw [lexFrom]
  split
  · rename_i heq
    cases heq
  · rename_i heq
    cases heq
    split
    · rename_i heq
      rw [h] at heq
      cases heq
    · rename_i heq
      rw [h] at heq
      cases heq
      rw [hnext]
      cases piece <;> rfl

theorem lexFrom_skip (h : scanPiece pos c cs = .ok (none, next)) :
    lexFrom ⟨pos, c :: cs⟩ = lexFrom next := by
  rw [lexFrom]
  split
  · rename_i heq
    cases heq
  · rename_i heq
    cases heq
    split
    · rename_i heq
      rw [h] at heq
      cases heq
    · rename_i heq
      rw [h] at heq
      cases heq
      cases lexFrom next <;> rfl

theorem lexFrom_blank (hc : Text.isBlank c) (pos : Nat) (cs : List Char) :
    lexFrom ⟨pos, c :: cs⟩ = lexFrom ⟨pos + c.utf8Size, cs⟩ := by
  have hskip {pos : Nat} {c : Char} {cs : List Char} (hc : Text.isBlank c) :
      lexFrom ⟨pos, c :: cs⟩ = lexFrom (scanRun Text.isBlank (pos + c.utf8Size) cs).2 :=
    lexFrom_skip (by rw [scanPiece, if_pos hc])
  rw [hskip hc]
  cases cs with
  | nil => rfl
  | cons d ds =>
    by_cases hd : Text.isBlank d
    · rw [hskip hd]
      simp only [scanRun, List.takeWhile_cons, List.dropWhile_cons, hd, ↓reduceIte, byteLength,
        Nat.add_assoc]
    · simp only [scanRun, List.takeWhile_cons, List.dropWhile_cons, hd, Bool.false_eq_true,
        ↓reduceIte, byteLength, Nat.add_zero]

theorem scanPiece_line {body : List Char} (hdashes : 1 ≤ dashes) (hstart : Stops isSymbol body)
    (hbody : ∀ c ∈ body, c ≠ '\n') (hend : ∀ c ∈ rest.head?, c = '\n') (pos : Nat) :
    scanPiece pos '-' (List.replicate dashes '-' ++ body ++ rest) =
      .ok (none, ⟨pos + 1 + byteLength (List.replicate dashes '-' ++ body), rest⟩) := by
  have hstops : Stops isSymbol (body ++ rest) := by
    cases body with
    | nil =>
      intro c hc
      rw [hend c hc]
      decide
    | cons c cs => exact hstart
  have hline : startsLineComment ('-' :: (List.replicate dashes '-' ++ body ++ rest)) := by
    rw [List.append_assoc]
    exact (startsLineComment_iff _).mpr ⟨dashes + 1, _, by omega, hstops, rfl⟩
  have hrun : scanRun (· != '\n') (pos + 1) (List.replicate dashes '-' ++ body ++ rest) =
      (List.replicate dashes '-' ++ body,
        ⟨pos + 1 + byteLength (List.replicate dashes '-' ++ body), rest⟩) := by
    refine scanRun_stops _ ?_ ?_
    · intro c hc
      rcases List.mem_append.mp hc with hc | hc
      · rw [List.eq_of_mem_replicate hc]
        decide
      · simpa using hbody c hc
    · intro c hc
      simp [hend c hc]
  have hblank : Text.isBlank '-' = false := by decide
  have hsize : ('-' : Char).utf8Size = 1 := rfl
  unfold scanPiece
  simp only [hblank, hline, hsize, hrun, Bool.false_eq_true, ↓reduceIte, Char.reduceEq, false_and]

theorem scanPiece_block (h : Inside inside) (rest : List Char) (pos : Nat) :
    scanPiece pos '{' ('-' :: (inside ++ '-' :: '}' :: rest)) =
      .ok (none, ⟨pos + 2 + byteLength inside + 2, rest⟩) := by
  have hblank : Text.isBlank '{' = false := by decide
  simp [scanPiece, hblank, closeComment_inside h, closeComment]

/-- The lexer skips gaps. -/
theorem lexFrom_gap {gap : List Char} (h : Gap gap after) (pos : Nat) :
    lexFrom ⟨pos, gap ++ after⟩ = lexFrom ⟨pos + byteLength gap, after⟩ := by
  induction h generalizing pos with
  | nil => rfl
  | blank hc _ ih => rw [List.cons_append, lexFrom_blank hc, ih, byteLength, Nat.add_assoc]
  | @line dashes body text after hdashes hstart hbody hend _ ih =>
    obtain ⟨more, rfl⟩ : ∃ more, dashes = more + 1 := ⟨dashes - 1, by omega⟩
    have hsize : ('-' : Char).utf8Size = 1 := rfl
    have hmore : 1 ≤ more := by omega
    have hskip := lexFrom_skip (scanPiece_line hmore hstart hbody hend pos)
    rw [List.replicate_succ, List.cons_append, List.cons_append, List.append_assoc,
      List.append_assoc, ← List.append_assoc _ body, hskip, ih, byteLength, hsize,
      ← List.append_assoc, byteLength_append _ text]
    simp only [Nat.add_assoc]
  | @block inside text after hinside _ ih =>
    have hmark : byteLength ['{', '-'] = 2 ∧ byteLength ['-', '}'] = 2 := ⟨rfl, rfl⟩
    have hskip := lexFrom_skip (scanPiece_block hinside (text ++ after) pos)
    have hlength : byteLength ('{' :: '-' :: (inside ++ '-' :: '}' :: text)) =
        2 + byteLength inside + 2 + byteLength text := by
      show byteLength (['{', '-'] ++ (inside ++ (['-', '}'] ++ text))) = _
      simp only [byteLength_append, hmark]
      omega
    rw [List.cons_append, List.cons_append, List.append_assoc, List.cons_append, List.cons_append,
      hskip, ih, hlength]
    simp only [Nat.add_assoc]

/-! ## Tilings -/

/-- A text from byte `pos` on is made up of gaps and the lexemes of tokens. No token could be
longer, and the end of the text is the last token. -/
inductive Tiles : Nat → List Char → List (Located Token) → Prop
  | done {pos gap} (h : Gap gap []) : Tiles pos gap [⟨.eof, .point (pos + byteLength gap)⟩]
  | token {pos gap lexeme after token more} (hgap : Gap gap (lexeme ++ after))
      (hlexeme : Lexeme lexeme token) (hend : Stops (goesOn token) after)
      (h : Tiles (pos + byteLength gap + byteLength lexeme) after more) :
      Tiles pos (gap ++ (lexeme ++ after))
        (⟨token, ⟨pos + byteLength gap, pos + byteLength gap + byteLength lexeme⟩⟩ :: more)

/-- What goes in front of gaps goes in front of a tiling. -/
theorem Tiles.skip {front : List Char}
    (hfront : ∀ text after, rest = text ++ after → Gap text after → Gap (front ++ text) after)
    (h : Tiles (pos + byteLength front) rest tokens) : Tiles pos (front ++ rest) tokens := by
  cases h with
  | done hgap =>
    rw [Nat.add_assoc, ← byteLength_append]
    exact .done (hfront _ [] (List.append_nil _).symm hgap)
  | token hgap hlexeme hend hmore =>
    rw [← List.append_assoc]
    rw [Nat.add_assoc pos, ← byteLength_append] at hmore ⊢
    exact .token (hfront _ _ rfl hgap) hlexeme hend hmore

/-- The tokens that the lexer finds tile the text. -/
theorem tiles_of_lexFrom {here : Cursor} (h : lexFrom here = .ok tokens) :
    Tiles here.pos here.rest tokens := by
  fun_induction lexFrom here generalizing tokens with
  | case1 here hrest =>
    cases h
    rw [hrest]
    exact .done .nil
  | case2 => cases h
  | case3 => cases h
  | case4 here c cs hrest next more hmore _ hpiece _ ih =>
    cases h
    obtain ⟨taken, hreads, hgap⟩ := gap_of_scanPiece hpiece
    rw [← hrest] at hreads
    have htiles := ih hmore
    rw [hreads.pos] at htiles
    rw [hreads.rest]
    exact htiles.skip hgap
  | case5 here c cs hrest next more hmore token _ hpiece _ ih =>
    cases h
    obtain ⟨lexeme, hreads, hlexeme, hend⟩ := lexeme_of_scanPiece hpiece
    rw [← hrest] at hreads
    have htiles := ih hmore
    rw [hreads.pos] at htiles ⊢
    rw [hreads.rest]
    exact .token .nil hlexeme hend htiles

/-- The lexer finds the tokens of every tiling. -/
theorem lexFrom_of_tiles (h : Tiles pos text tokens) : lexFrom ⟨pos, text⟩ = .ok tokens := by
  induction h with
  | @done pos gap h =>
    rw [← List.append_nil gap, lexFrom_gap h, lexFrom, List.append_nil]
  | @token pos gap lexeme after token more hgap hlexeme hend _ ih =>
    rw [lexFrom_gap hgap]
    obtain ⟨c, cs, rfl, hpiece⟩ := scanPiece_lexeme hlexeme hend (pos + byteLength gap)
    rw [List.cons_append, lexFrom_piece hpiece ih]
    rfl

/-- **The lexer finds exactly the tilings of a text.** -/
theorem lexFrom_ok_iff (here : Cursor) (tokens : List (Located Token)) :
    lexFrom here = .ok tokens ↔ Tiles here.pos here.rest tokens :=
  ⟨tiles_of_lexFrom, lexFrom_of_tiles⟩

end Lamina.Lexer
