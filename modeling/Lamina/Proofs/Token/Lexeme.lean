import Lamina.Proofs.Text.Position
import Lamina.Token.Lexer

/-!
# Lexemes

The text of a token in a source is its lexeme (`Lexeme`). At a place where no blank and no comment
starts, the lexer cuts out a lexeme that the next character does not make longer
(`lexeme_of_scanToken`), and every such lexeme is cut out as its token (`scanPiece_lexeme`). So no
text is the lexeme of two tokens.
-/

namespace Lamina

/-- A scanner goes from one place of a text to another over the characters `taken`. -/
structure Cursor.Reads (here : Cursor) (taken : List Char) (next : Cursor) : Prop where
  rest : here.rest = taken ++ next.rest
  pos : next.pos = here.pos + byteLength taken

namespace Cursor.Reads

variable {next : Cursor}

theorem refl (here : Cursor) : here.Reads [] here := ⟨rfl, rfl⟩

theorem trans {here middle : Cursor} {first second : List Char} (h : here.Reads first middle)
    (h' : middle.Reads second next) : here.Reads (first ++ second) next :=
  ⟨by rw [h.rest, h'.rest, List.append_assoc],
    by rw [h'.pos, h.pos, byteLength_append, Nat.add_assoc]⟩

theorem char (pos : Nat) (c : Char) (cs : List Char) :
    Reads ⟨pos, c :: cs⟩ [c] ⟨pos + c.utf8Size, cs⟩ := ⟨rfl, rfl⟩

/-- One more character in front. -/
theorem cons {pos c cs taken} (h : Reads ⟨pos + c.utf8Size, cs⟩ taken next) :
    Reads ⟨pos, c :: cs⟩ (c :: taken) next :=
  (char pos c cs).trans h

end Cursor.Reads

namespace Lexer

variable {c d : Char} {p : Char → Bool} {text rest word cs body lexeme : List Char}
  {pos start : Nat} {next : Cursor} {token : Token}

/-! ## Names and operators -/

/-- Is a text cut out as one name? -/
def isWord : List Char → Bool
  | [] => false
  | c :: cs => isNameStart c && cs.all isNamePart

/-- Is a text a name in lower case, and no reserved word? -/
def isVarName (name : String) : Bool :=
  isWord name.toList && (Keyword.ofText? name).isNone && !name.toList.head?.any Text.isCapital

/-- Is a text a name in upper case? -/
def isConName (name : String) : Bool :=
  isWord name.toList && (Keyword.ofText? name).isNone && name.toList.head?.any Text.isCapital

/-- Is a text an operator of symbols, neither reserved nor the start of a comment? -/
def isOpName (name : String) : Bool :=
  !name.toList.isEmpty && name.toList.all isSymbol && (ReservedOp.ofText? name).isNone &&
    !startsLineComment name.toList

/-! ## Characters by class -/

/-- A character that starts no blank, mark or literal in quotes. -/
structure Plain (c : Char) : Prop where
  blank : Text.isBlank c = false
  punct : Punct.ofChar? c = none
  quote : c ≠ '"'
  tick : c ≠ '\''

theorem plain_iff (c : Char) : Plain c ↔
    Text.isBlank c = false ∧ Punct.ofChar? c = none ∧ c ≠ '"' ∧ c ≠ '\'' :=
  ⟨fun h => ⟨h.blank, h.punct, h.quote, h.tick⟩, fun ⟨hb, hp, hq, ht⟩ => ⟨hb, hp, hq, ht⟩⟩

instance (c : Char) : Decidable (Plain c) := decidable_of_iff' _ (plain_iff c)

theorem Plain.ne_lbrace (h : Plain c) : c ≠ '{' := by
  rintro rfl
  exact absurd h.punct (by decide)

theorem plain_of_isSymbol (h : isSymbol c) :
    Plain c ∧ c.isDigit = false ∧ isNameStart c = false := by
  have hall : ("!#$%&*+./<=>?@\\^|-~:".toList.all fun d =>
      Plain d ∧ d.isDigit = false ∧ isNameStart d = false) = true := by decide +kernel
  exact of_decide_eq_true (List.all_eq_true.mp hall c (List.contains_iff_mem.mp h))

theorem plain_of_isDigit (h : c.isDigit) : Plain c ∧ c ≠ '-' ∧ isNameStart c = false := by
  have hall : ∀ n < 58, (Char.ofNat n).isDigit →
      Plain (Char.ofNat n) ∧ Char.ofNat n ≠ '-' ∧ isNameStart (Char.ofNat n) = false := by
    decide +kernel
  have hlt : c.toNat < 58 := by
    simp only [Char.isDigit, ge_iff_le, Bool.and_eq_true, decide_eq_true_eq] at h
    exact Nat.lt_succ_of_le (UInt32.le_iff_toNat_le.mp h.2)
  have hc := hall c.toNat hlt
  rw [Char.ofNat_toNat] at hc
  exact hc h

/-- The code points of blanks. -/
def blankCodes : List Nat :=
  [9, 10, 11, 12, 13, 0x20, 0x85, 0xa0, 0x1680, 0x2000, 0x2001, 0x2002, 0x2003, 0x2004, 0x2005,
    0x2006, 0x2007, 0x2008, 0x2009, 0x200a, 0x2028, 0x2029, 0x202f, 0x205f, 0x3000]

theorem mem_blankCodes_of_isBlank (h : Text.isBlank c) : c.toNat ∈ blankCodes := by
  simp only [Text.isBlank, Bool.or_eq_true, Bool.and_eq_true, decide_eq_true_eq, beq_iff_eq] at h
  simp only [blankCodes, List.mem_cons, List.not_mem_nil, or_false]
  omega

theorem isNameStart_of_isBlank (h : Text.isBlank c) : isNameStart c = false := by
  have hall : ∀ n ∈ blankCodes, isNameStart (Char.ofNat n) = false := by decide +kernel
  have hc := hall c.toNat (mem_blankCodes_of_isBlank h)
  rwa [Char.ofNat_toNat] at hc

theorem isNameStart_of_ofChar? {mark : Punct} (h : Punct.ofChar? c = some mark) :
    isNameStart c = false := by
  have hmark := List.find?_some h
  rw [beq_iff_eq] at hmark
  rw [← hmark]
  cases mark <;> decide

theorem plain_of_isNameStart (h : isNameStart c) : Plain c ∧ c ≠ '-' ∧ c.isDigit = false := by
  refine ⟨⟨?_, ?_, ?_, ?_⟩, ?_, ?_⟩
  · refine Bool.eq_false_iff.mpr fun hblank => ?_
    simp [isNameStart_of_isBlank hblank] at h
  · refine Option.eq_none_iff_forall_ne_some.mpr fun mark hmark => ?_
    simp [isNameStart_of_ofChar? hmark] at h
  · rintro rfl
    exact absurd h (by decide)
  · rintro rfl
    exact absurd h (by decide)
  · rintro rfl
    exact absurd h (by decide)
  · refine Bool.eq_false_iff.mpr fun hdigit => ?_
    simp [(plain_of_isDigit hdigit).2.2] at h

/-! ## Runs -/

/-- A text does not go on with a character of a class. -/
def Stops (p : Char → Bool) (rest : List Char) : Prop := ∀ c ∈ rest.head?, p c = false

theorem Stops.nil (p : Char → Bool) : Stops p [] := nofun

theorem Stops.append_cons (h : Stops p text) (hc : p c = false) : Stops p (text ++ c :: rest) := by
  cases text with
  | nil => simpa [Stops] using hc
  | cons d ds => exact h

theorem Stops.of_append (h : Stops p (text ++ rest)) : Stops p text := by
  cases text with
  | nil => exact .nil p
  | cons d ds => exact h

theorem stops_dropWhile (p : Char → Bool) (cs : List Char) : Stops p (cs.dropWhile p) := by
  intro c hc
  have hne : cs.dropWhile p ≠ [] := by
    intro hnil
    simp [hnil] at hc
  have hhead := List.head_dropWhile_not p hne
  rw [List.head?_eq_some_head hne, Option.mem_def, Option.some.injEq] at hc
  rwa [hc] at hhead

theorem scanRun_reads (p : Char → Bool) (pos : Nat) (cs : List Char) :
    Cursor.Reads ⟨pos, cs⟩ (scanRun p pos cs).1 (scanRun p pos cs).2 :=
  ⟨List.takeWhile_append_dropWhile.symm, rfl⟩

theorem utf8Size_of_isDigit (h : c.isDigit) : c.utf8Size = 1 := by
  simp only [Char.isDigit, Bool.and_eq_true, decide_eq_true_eq, ge_iff_le] at h
  have hval : c.val ≤ 127 := UInt32.le_trans h.2 (by decide)
  exact if_pos hval

theorem scanRun_stops (pos : Nat) (hword : ∀ c ∈ word, p c) (hrest : Stops p rest) :
    scanRun p pos (word ++ rest) = (word, ⟨pos + byteLength word, rest⟩) := by
  have hstop : rest.takeWhile p = [] ∧ rest.dropWhile p = rest := by
    cases rest with
    | nil => exact ⟨rfl, rfl⟩
    | cons c cs => simp [hrest c rfl]
  unfold scanRun
  rw [List.takeWhile_append_of_pos hword, List.dropWhile_append_of_pos hword, hstop.1, hstop.2,
    List.append_nil]

/-- A run is as long as its class allows. -/
theorem scanRun_longest (p : Char → Bool) (pos : Nat) (cs : List Char) :
    (∀ c ∈ (scanRun p pos cs).1, p c) ∧ Stops p (scanRun p pos cs).2.rest :=
  ⟨List.all_eq_true.mp List.all_takeWhile, stops_dropWhile p cs⟩

/-! ## Literals in quotes -/

/-- What stands behind the backslash of an escape, and the character that it denotes. -/
inductive Escape : List Char → Char → Prop
  | newline : Escape ['n'] '\n'
  | tab : Escape ['t'] '\t'
  | carriageReturn : Escape ['r'] '\r'
  | itself {c : Char} (h : c = '\\' ∨ c = '"' ∨ c = '\'') : Escape [c] c
  /-- The number of a code point. -/
  | code {d ds} (hdigits : ∀ e ∈ d :: ds, e.isDigit) (hvalid : (decimal (d :: ds)).isValidChar) :
      Escape (d :: ds) (Char.ofNat (decimal (d :: ds)))

/-- A number does not go on in what follows it; other escapes end by themselves. -/
def EndsBefore (written rest : List Char) : Prop :=
  (∀ d ∈ written, d.isDigit) → Stops Char.isDigit rest

theorem endsBefore_of_not_isDigit (h : c.isDigit = false) (rest : List Char) :
    EndsBefore [c] rest := by
  intro hdigits
  have hc := hdigits c List.mem_cons_self
  rw [h] at hc
  cases hc

/-- The text between double quotes, and the characters that it denotes. -/
inductive StringBody : List Char → List Char → Prop
  | nil : StringBody [] []
  | char {c : Char} {body text : List Char} (hnewline : c ≠ '\n') (hquote : c ≠ '"')
      (hescape : c ≠ '\\') (h : StringBody body text) : StringBody (c :: body) (c :: text)
  | escape {written body text c} (hc : Escape written c) (hend : EndsBefore written body)
      (h : StringBody body text) : StringBody ('\\' :: (written ++ body)) (c :: text)

/-- The text between single quotes, and the character that it denotes. -/
inductive CharBody : List Char → Char → Prop
  | char {c : Char} (hescape : c ≠ '\\') (hquote : c ≠ '\'') (hnewline : c ≠ '\n') : CharBody [c] c
  | escape {written c} (hc : Escape written c) : CharBody ('\\' :: written) c

theorem ne_escape_of_isDigit (h : c.isDigit) :
    c ≠ 'n' ∧ c ≠ 't' ∧ c ≠ 'r' ∧ ¬ (c = '\\' ∨ c = '"' ∨ c = '\'') := by
  refine ⟨?_, ?_, ?_, ?_⟩
  · rintro rfl
    exact absurd h (by decide)
  · rintro rfl
    exact absurd h (by decide)
  · rintro rfl
    exact absurd h (by decide)
  · rintro (rfl | rfl | rfl) <;> exact absurd h (by decide)

theorem scanEscape_of_escape {written : List Char} (pos : Nat) (h : Escape written c)
    (hend : EndsBefore written rest) :
    scanEscape pos (written ++ rest) = .ok (c, ⟨pos + byteLength written, rest⟩) := by
  cases h with
  | newline => rfl
  | tab => rfl
  | carriageReturn => rfl
  | itself h => rcases h with rfl | rfl | rfl <;> rfl
  | @code d ds hdigits hvalid =>
    have hstops := hend hdigits
    obtain ⟨hd, hds⟩ := List.forall_mem_cons.mp hdigits
    obtain ⟨hn, ht, hr, hself⟩ := ne_escape_of_isDigit hd
    simp only [List.cons_append, scanEscape, hn, ht, hr, hself, ↓reduceIte, hd,
      scanRun_stops (pos + 1) hds hstops, hvalid, byteLength, utf8Size_of_isDigit hd,
      Nat.add_assoc]

theorem escape_of_scanEscape (h : scanEscape pos cs = .ok (c, next)) :
    ∃ written, Cursor.Reads ⟨pos, cs⟩ written next ∧ Escape written c ∧
      EndsBefore written next.rest := by
  cases cs with
  | nil => cases h
  | cons d cs =>
    have hone {e : Char} (hsize : d.utf8Size = 1) (hescape : Escape [d] e)
        (hdigit : d.isDigit = false) : ∃ written,
          Cursor.Reads ⟨pos, d :: cs⟩ written ⟨pos + 1, cs⟩ ∧ Escape written e ∧
            EndsBefore written cs := by
      refine ⟨[d], ?_, hescape, endsBefore_of_not_isDigit hdigit cs⟩
      rw [← hsize]
      exact .char pos d cs
    simp only [scanEscape] at h
    split at h
    · rename_i hd
      subst hd
      cases h
      exact hone rfl .newline rfl
    split at h
    · rename_i hd
      subst hd
      cases h
      exact hone rfl .tab rfl
    split at h
    · rename_i hd
      subst hd
      cases h
      exact hone rfl .carriageReturn rfl
    split at h
    · rename_i hd
      cases h
      exact hone (by rcases hd with rfl | rfl | rfl <;> rfl) (.itself hd)
        (by rcases hd with rfl | rfl | rfl <;> rfl)
    split at h
    · rename_i hdigit
      split at h
      · rename_i hvalid
        cases h
        obtain ⟨hrun, hstops⟩ := scanRun_longest Char.isDigit (pos + 1) cs
        have hreads := scanRun_reads Char.isDigit (pos + 1) cs
        rw [← utf8Size_of_isDigit hdigit] at hreads hrun hstops ⊢
        exact ⟨_, .cons hreads, .code (List.forall_mem_cons.mpr ⟨hdigit, hrun⟩) hvalid,
          fun _ => hstops⟩
      · cases h
    · cases h

theorem scanString_escape (h : scanEscape (pos + 1) cs = .ok (d, next)) :
    scanString start pos ('\\' :: cs) =
      (scanString start next.pos next.rest).map fun (text, last) => (d :: text, last) := by
  rw [scanString]
  simp only [Char.reduceEq, ↓reduceIte]
  split
  · rename_i heq
    rw [h] at heq
    cases heq
  · rename_i heq
    rw [h] at heq
    cases heq
    cases scanString start next.pos next.rest <;> rfl

/-- What is read goes in front of what is read behind it. -/
theorem scanString_append (h : StringBody body text) (hrest : Stops Char.isDigit rest)
    (start pos : Nat) : scanString start pos (body ++ rest) =
      (scanString start (pos + byteLength body) rest).map fun (more, last) =>
        (text ++ more, last) := by
  induction h generalizing pos with
  | nil =>
    rw [List.nil_append, byteLength, Nat.add_zero]
    cases scanString start pos rest <;> rfl
  | @char c body text hnewline hquote hescape _ ih =>
    rw [List.cons_append, scanString]
    simp only [hnewline, hquote, hescape, ↓reduceIte, ih, byteLength, Nat.add_assoc]
    cases scanString start (pos + (c.utf8Size + byteLength body)) rest <;> rfl
  | @escape written body text c hc hend _ ih =>
    have hstops : EndsBefore written (body ++ rest) := fun hdigits => by
      cases body with
      | nil => exact hrest
      | cons d ds => exact hend hdigits
    have hsize : ('\\' : Char).utf8Size = 1 := rfl
    rw [List.cons_append, List.append_assoc,
      scanString_escape (scanEscape_of_escape (pos + 1) hc hstops), ih]
    simp only [byteLength, byteLength_append, hsize, Nat.add_assoc]
    cases scanString start (pos + (1 + (byteLength written + byteLength body))) rest <;> rfl

theorem scanString_of_body (h : StringBody body text) (start pos : Nat) (rest : List Char) :
    scanString start pos (body ++ '"' :: rest) =
      .ok (text, ⟨pos + byteLength body + 1, rest⟩) := by
  have hquote : Stops Char.isDigit ('"' :: rest) := (Stops.nil _).append_cons (by decide)
  rw [scanString_append h hquote, scanString]
  simp [Except.map]

theorem body_of_scanString (h : scanString start pos cs = .ok (text, next)) :
    ∃ body, Cursor.Reads ⟨pos, cs⟩ (body ++ ['"']) next ∧ StringBody body text := by
  fun_induction scanString start pos cs generalizing text next with
  | case1 => cases h
  | case2 => cases h
  | case3 pos cs =>
    cases h
    exact ⟨[], .cons (.refl _), .nil⟩
  | case4 => cases h
  | case5 => cases h
  | case6 pos cs d middle hescape _ text' last hmore _ _ ih =>
    cases h
    obtain ⟨written, hwritten, hc, hend⟩ := escape_of_scanEscape hescape
    obtain ⟨body, hreads, hbody⟩ := ih hmore
    refine ⟨'\\' :: (written ++ body), ?_, .escape hc (fun hdigits => ?_) hbody⟩
    · rw [List.cons_append, List.append_assoc]
      exact .cons (hwritten.trans hreads)
    · have hstops := hend hdigits
      rw [hreads.rest, List.append_assoc] at hstops
      exact hstops.of_append
  | case7 => cases h
  | case8 pos c cs hnewline hquote hescape text' last hmore ih =>
    cases h
    obtain ⟨body, hreads, hbody⟩ := ih hmore
    exact ⟨c :: body, .cons hreads, .char hnewline hquote hescape hbody⟩

theorem scanChar_of_body (h : CharBody body c) (start pos : Nat) (rest : List Char) :
    scanChar start pos (body ++ '\'' :: rest) =
      .ok (c, ⟨pos + byteLength body + 1, rest⟩) := by
  cases h with
  | char hescape hquote hnewline =>
    simp [scanChar, closeQuote, hescape, hquote, hnewline, byteLength]
  | @escape written _ hc =>
    have hstops : EndsBefore written ('\'' :: rest) := fun _ =>
      (Stops.nil _).append_cons (by decide)
    have hsize : ('\\' : Char).utf8Size = 1 := rfl
    simp [scanChar, closeQuote, scanEscape_of_escape (pos + 1) hc hstops, byteLength, hsize,
      Nat.add_assoc]

theorem closeQuote_reads {here : Cursor} (h : closeQuote start c here = .ok (d, next)) :
    here.Reads ['\''] next ∧ d = c := by
  obtain ⟨pos, rest⟩ := here
  unfold closeQuote at h
  split at h
  · rename_i cs hrest
    cases h
    cases hrest
    exact ⟨.char pos _ cs, rfl⟩
  · cases h

theorem body_of_scanChar (h : scanChar start pos cs = .ok (c, next)) :
    ∃ body, Cursor.Reads ⟨pos, cs⟩ (body ++ ['\'']) next ∧ CharBody body c := by
  cases cs with
  | nil => cases h
  | cons d cs =>
    simp only [scanChar] at h
    split at h
    · rename_i hd
      subst hd
      split at h
      · cases h
      · rename_i hescape
        obtain ⟨written, hwritten, hc, _⟩ := escape_of_scanEscape hescape
        obtain ⟨hquote, rfl⟩ := closeQuote_reads h
        exact ⟨_, .cons (hwritten.trans hquote), .escape hc⟩
    · rename_i hescape
      split at h
      · cases h
      · rename_i hd
        obtain ⟨hquote, hnewline⟩ := not_or.mp hd
        obtain ⟨hreads, rfl⟩ := closeQuote_reads h
        exact ⟨[c], .cons hreads, .char hescape hquote hnewline⟩

/-! ## Lexemes -/

/-- The text of a token. -/
inductive Lexeme : List Char → Token → Prop
  | keyword (word : Keyword) : Lexeme word.text.toList (.keyword word)
  | varId {name} (h : isVarName name) : Lexeme name.toList (.varId name)
  | conId {name} (h : isConName name) : Lexeme name.toList (.conId name)
  | op {name} (h : isOpName name) : Lexeme name.toList (.op name)
  | reserved (symbol : ReservedOp) : Lexeme symbol.text.toList (.reserved symbol)
  | punct (mark : Punct) : Lexeme [mark.char] (.punct mark)
  | int {c : Char} {cs : List Char} {value : Int64} (hdigits : ∀ d ∈ c :: cs, d.isDigit)
      (hvalue : value.toInt = decimal (c :: cs)) : Lexeme (c :: cs) (.int value)
  | str {body text : List Char} (h : StringBody body text) :
      Lexeme ('"' :: (body ++ ['"'])) (.str (String.ofList text))
  | char {body : List Char} {c : Char} (h : CharBody body c) :
      Lexeme ('\'' :: (body ++ ['\''])) (.str c.toString)

/-- The characters that would make the lexeme of a token longer, or a comment of it. -/
def goesOn : Token → Char → Bool
  | .keyword _ | .varId _ | .conId _ => isNamePart
  | .op _ | .reserved _ => isSymbol
  | .int _ => Char.isDigit
  | .punct .lbrace => (· == '-')
  | .punct _ | .str _ | .eof => fun _ => false

/-- No token goes on with a blank. -/
theorem goesOn_blank (token : Token) (h : Text.isBlank c) : goesOn token c = false := by
  have hall : ∀ n ∈ blankCodes, isNamePart (Char.ofNat n) = false ∧
      isSymbol (Char.ofNat n) = false ∧ (Char.ofNat n).isDigit = false ∧ Char.ofNat n ≠ '-' := by
    decide +kernel
  have hc := hall c.toNat (mem_blankCodes_of_isBlank h)
  rw [Char.ofNat_toNat] at hc
  obtain ⟨hname, hsymbol, hdigit, hdash⟩ := hc
  cases token with
  | keyword | varId | conId => exact hname
  | op | reserved => exact hsymbol
  | int => exact hdigit
  | str | eof => rfl
  | punct mark => cases mark <;> first | rfl | exact beq_eq_false_iff_ne.mpr hdash

/-- A token is cut out where no blank and no comment starts. -/
theorem scanPiece_token {pos : Nat} {c : Char} {cs : List Char} {token : Token} {next : Cursor}
    (hblank : Text.isBlank c = false) (hblock : ¬ (c = '{' ∧ cs.head? = some '-'))
    (hline : startsLineComment (c :: cs) = false)
    (h : scanToken pos c cs = .ok (token, next)) : scanPiece pos c cs = .ok (some token, next) := by
  unfold scanPiece
  simp only [hblank, Bool.false_eq_true, ↓reduceIte, hblock, hline, h]

theorem startsLineComment_of_ne (h : c ≠ '-') : startsLineComment (c :: cs) = false := by
  unfold startsLineComment
  split
  · rename_i heq
    cases heq
    exact absurd rfl h
  · rfl

theorem goesOn_nameToken (word : List Char) : goesOn (nameToken word) = isNamePart := by
  unfold nameToken
  simp only
  split
  · rfl
  · split <;> rfl

theorem goesOn_symbolToken (word : List Char) : goesOn (symbolToken word) = isSymbol := by
  unfold symbolToken
  simp only
  split <;> rfl

/-- What cannot make an operator longer decides nothing about a comment before it. -/
theorem startsLineComment_stops (word : List Char) (hrest : Stops isSymbol rest) :
    startsLineComment (word ++ rest) = startsLineComment word := by
  have hdash : ∀ c ∈ rest.head?, c ≠ '-' := by
    rintro c hc rfl
    exact absurd (hrest '-' hc) (by decide)
  have hdrop : rest.dropWhile (· == '-') = rest := by
    cases rest with
    | nil => rfl
    | cons c cs => simp [hdash c rfl]
  match word with
  | [] =>
    cases rest with
    | nil => rfl
    | cons c cs => exact startsLineComment_of_ne (hdash c rfl)
  | [c] =>
    by_cases hc : c = '-'
    · cases rest with
      | nil => rfl
      | cons d ds =>
        have hd := hdash d rfl
        simp [startsLineComment, hd]
    · rw [List.singleton_append, startsLineComment_of_ne hc, startsLineComment_of_ne hc]
  | c :: d :: more =>
    by_cases hcd : c = '-' ∧ d = '-'
    · obtain ⟨rfl, rfl⟩ := hcd
      simp only [List.cons_append, startsLineComment, List.dropWhile_append, hdrop]
      cases hmore : more.dropWhile (· == '-') with
      | cons e es => rfl
      | nil =>
        cases rest with
        | nil => rfl
        | cons e es => simp [hrest e rfl]
    · have hno (tail : List Char) : startsLineComment (c :: d :: tail) = false := by
        unfold startsLineComment
        split
        · rename_i heq
          cases heq
          exact absurd ⟨rfl, rfl⟩ hcd
        · rfl
      rw [List.cons_append, List.cons_append, hno, hno]

/-! ## From lexemes to tokens -/

theorem scanPiece_word (pos : Nat) (h : isWord word) (hrest : Stops isNamePart rest) :
    ∃ c cs, word = c :: cs ∧
      scanPiece pos c (cs ++ rest) =
        .ok (some (nameToken word), ⟨pos + byteLength word, rest⟩) := by
  cases word with
  | nil => cases h
  | cons c cs =>
    simp only [isWord, Bool.and_eq_true, List.all_eq_true] at h
    obtain ⟨hc, hcs⟩ := h
    obtain ⟨hplain, hdash, hdigit⟩ := plain_of_isNameStart hc
    refine ⟨c, cs, rfl, scanPiece_token hplain.blank (fun h => hplain.ne_lbrace h.1)
      (startsLineComment_of_ne hdash) ?_⟩
    unfold scanToken
    rw [hplain.punct, scanRun_stops _ hcs hrest]
    simp only [hplain.quote, hplain.tick, hdigit, hc, Bool.false_eq_true, ↓reduceIte, byteLength,
      Nat.add_assoc]

theorem scanPiece_symbols (pos : Nat) (hne : word ≠ []) (hall : word.all isSymbol)
    (hcomment : startsLineComment word = false) (hrest : Stops isSymbol rest) :
    ∃ c cs, word = c :: cs ∧
      scanPiece pos c (cs ++ rest) =
        .ok (some (symbolToken word), ⟨pos + byteLength word, rest⟩) := by
  cases word with
  | nil => contradiction
  | cons c cs =>
    obtain ⟨hc, hcs⟩ := List.forall_mem_cons.mp (List.all_eq_true.mp hall)
    obtain ⟨hplain, hdigit, hname⟩ := plain_of_isSymbol hc
    refine ⟨c, cs, rfl, scanPiece_token hplain.blank (fun h => hplain.ne_lbrace h.1) ?_ ?_⟩
    · exact (startsLineComment_stops (c :: cs) hrest).trans hcomment
    unfold scanToken
    rw [hplain.punct, scanRun_stops _ hcs hrest]
    simp only [hplain.quote, hplain.tick, hdigit, hname, hc, Bool.false_eq_true, ↓reduceIte,
      byteLength, Nat.add_assoc]

theorem scanPiece_digits (pos : Nat) (hdigits : ∀ d ∈ c :: cs, d.isDigit)
    (hvalue : decimal (c :: cs) < 9223372036854775808) (hrest : Stops Char.isDigit rest) :
    scanPiece pos c (cs ++ rest) =
      .ok (some (.int (Int64.ofNat (decimal (c :: cs)))), ⟨pos + byteLength (c :: cs), rest⟩) := by
  obtain ⟨hc, hcs⟩ := List.forall_mem_cons.mp hdigits
  obtain ⟨hplain, hdash, -⟩ := plain_of_isDigit hc
  refine scanPiece_token hplain.blank (fun h => hplain.ne_lbrace h.1)
    (startsLineComment_of_ne hdash) ?_
  unfold scanToken
  rw [hplain.punct, scanRun_stops _ hcs hrest]
  simp only [hplain.quote, hplain.tick, hc, hvalue, ↓reduceIte, byteLength, utf8Size_of_isDigit hc,
    Nat.add_assoc]

theorem scanPiece_mark (pos : Nat) (mark : Punct) (hrest : Stops (goesOn (.punct mark)) rest) :
    scanPiece pos mark.char rest = .ok (some (.punct mark), ⟨pos + mark.char.utf8Size, rest⟩) := by
  have hmark : Text.isBlank mark.char = false ∧ mark.char ≠ '-' ∧
      Punct.ofChar? mark.char = some mark := by cases mark <;> decide
  refine scanPiece_token hmark.1 ?_ (startsLineComment_of_ne hmark.2.1) ?_
  · rintro ⟨hbrace, hdash⟩
    have hmark : mark = .lbrace := by
      cases mark <;> first | rfl | exact absurd hbrace (by decide)
    subst hmark
    exact absurd (hrest '-' hdash) (by decide)
  · unfold scanToken
    rw [hmark.2.2]

/-- A quote starts neither a blank nor a comment. -/
theorem scanPiece_quote (hc : c = '"' ∨ c = '\'') (h : scanToken pos c cs = .ok (token, next)) :
    scanPiece pos c cs = .ok (some token, next) := by
  refine scanPiece_token ?_ ?_ (startsLineComment_of_ne ?_) h
  · rcases hc with rfl | rfl <;> decide
  · rcases hc with rfl | rfl <;> simp
  · rcases hc with rfl | rfl <;> decide

/-- A lexeme is cut out as its token where the next character does not go on with it. -/
theorem scanPiece_lexeme (h : Lexeme lexeme token) (hrest : Stops (goesOn token) rest) (pos : Nat) :
    ∃ c cs, lexeme = c :: cs ∧
      scanPiece pos c (cs ++ rest) = .ok (some token, ⟨pos + byteLength lexeme, rest⟩) := by
  cases h with
  | keyword word =>
    have hfacts : isWord word.text.toList ∧ nameToken word.text.toList = .keyword word := by
      cases word <;> decide +kernel
    exact hfacts.2 ▸ scanPiece_word pos hfacts.1 hrest
  | @varId name h =>
    simp only [isVarName, Bool.and_eq_true, Option.isNone_iff_eq_none, Bool.not_eq_true'] at h
    have htoken : nameToken name.toList = .varId name := by simp [nameToken, h.1.2, h.2]
    exact htoken ▸ scanPiece_word pos h.1.1 hrest
  | @conId name h =>
    simp only [isConName, Bool.and_eq_true, Option.isNone_iff_eq_none] at h
    have htoken : nameToken name.toList = .conId name := by simp [nameToken, h.1.2, h.2]
    exact htoken ▸ scanPiece_word pos h.1.1 hrest
  | @op name h =>
    simp only [isOpName, Bool.and_eq_true, Option.isNone_iff_eq_none, Bool.not_eq_true',
      List.isEmpty_eq_false_iff] at h
    have htoken : symbolToken name.toList = .op name := by simp [symbolToken, h.1.2]
    exact htoken ▸ scanPiece_symbols pos h.1.1.1 h.1.1.2 h.2 hrest
  | reserved symbol =>
    have hfacts : symbol.text.toList ≠ [] ∧ symbol.text.toList.all isSymbol ∧
        startsLineComment symbol.text.toList = false ∧
        symbolToken symbol.text.toList = .reserved symbol := by
      cases symbol <;> decide +kernel
    obtain ⟨hne, hall, hcomment, htoken⟩ := hfacts
    exact htoken ▸ scanPiece_symbols pos hne hall hcomment hrest
  | punct mark => exact ⟨mark.char, [], rfl, scanPiece_mark pos mark hrest⟩
  | @int c cs value hdigits hvalue =>
    have hlt : decimal (c :: cs) < 9223372036854775808 := by
      have hbound := value.toInt_lt
      omega
    have heq : Int64.ofNat (decimal (c :: cs)) = value := by
      rw [← Int64.ofInt_eq_ofNat, ← hvalue, Int64.ofInt_toInt]
    exact ⟨c, cs, rfl, heq ▸ scanPiece_digits pos hdigits hlt hrest⟩
  | @str body text h =>
    have hpunct : Punct.ofChar? '"' = none := by decide
    have hsize : ('"' : Char).utf8Size = 1 := rfl
    refine ⟨'"', body ++ ['"'], rfl, scanPiece_quote (.inl rfl) ?_⟩
    rw [List.append_assoc, List.singleton_append]
    unfold scanToken
    simp [hpunct, scanString_of_body h, byteLength, byteLength_append, hsize, Nat.add_assoc]
  | @char body c h =>
    have hpunct : Punct.ofChar? '\'' = none := by decide
    have hsize : ('\'' : Char).utf8Size = 1 := rfl
    refine ⟨'\'', body ++ ['\''], rfl, scanPiece_quote (.inr rfl) ?_⟩
    rw [List.append_assoc, List.singleton_append]
    unfold scanToken
    simp [hpunct, scanChar_of_body h, byteLength, byteLength_append, hsize, Nat.add_assoc]

/-- No text is the lexeme of two tokens. -/
theorem Lexeme.unique {one two : Token} (hone : Lexeme lexeme one) (htwo : Lexeme lexeme two) :
    one = two := by
  obtain ⟨c, cs, rfl, hscan⟩ := scanPiece_lexeme hone (.nil _) 0
  obtain ⟨_, _, heq, hscan'⟩ := scanPiece_lexeme htwo (.nil _) 0
  cases heq
  rw [hscan] at hscan'
  cases hscan'
  rfl

theorem Lexeme.ne_nil (h : Lexeme lexeme token) : lexeme ≠ [] := by
  obtain ⟨c, cs, rfl, _⟩ := scanPiece_lexeme h (.nil _) 0
  exact nofun

theorem Lexeme.ne_eof (h : Lexeme lexeme token) : token ≠ .eof := by
  cases h <;> exact nofun

/-! ## From tokens to lexemes -/

theorem lexeme_nameToken (h : isWord word) : Lexeme word (nameToken word) := by
  unfold nameToken
  simp only
  split
  · rename_i keyword hkeyword
    have htext := List.find?_some hkeyword
    rw [beq_iff_eq] at htext
    rw [← String.toList_ofList (l := word), ← htext]
    exact .keyword keyword
  · rename_i hkeyword
    split
    · rename_i hcapital
      have hname : isConName (String.ofList word) := by simp [isConName, h, hkeyword, hcapital]
      have hlexeme := Lexeme.conId hname
      rwa [String.toList_ofList] at hlexeme
    · rename_i hcapital
      have hname : isVarName (String.ofList word) := by simp [isVarName, h, hkeyword, hcapital]
      have hlexeme := Lexeme.varId hname
      rwa [String.toList_ofList] at hlexeme

theorem lexeme_symbolToken (hne : word ≠ []) (hall : ∀ c ∈ word, isSymbol c)
    (hcomment : startsLineComment word = false) : Lexeme word (symbolToken word) := by
  unfold symbolToken
  simp only
  split
  · rename_i symbol hsymbol
    have htext := List.find?_some hsymbol
    rw [beq_iff_eq] at htext
    rw [← String.toList_ofList (l := word), ← htext]
    exact .reserved symbol
  · rename_i hsymbol
    have hop : isOpName (String.ofList word) := by
      simpa [isOpName, hne, hsymbol, hcomment] using hall
    have hlexeme := Lexeme.op hop
    rwa [String.toList_ofList] at hlexeme

/-- Where no comment starts, a lexeme is cut out that the next character does not go on with. -/
theorem lexeme_of_scanToken {pos : Nat} {c : Char} {cs : List Char} {token : Token} {next : Cursor}
    (h : scanToken pos c cs = .ok (token, next)) (hblock : ¬ (c = '{' ∧ cs.head? = some '-'))
    (hline : startsLineComment (c :: cs) = false) :
    ∃ lexeme, Cursor.Reads ⟨pos, c :: cs⟩ lexeme next ∧ Lexeme lexeme token ∧
      Stops (goesOn token) next.rest := by
  unfold scanToken at h
  split at h
  · rename_i mark hmark
    cases h
    have hchar := List.find?_some hmark
    rw [beq_iff_eq] at hchar
    refine ⟨[c], .char pos c cs, hchar ▸ .punct mark, ?_⟩
    intro d hd
    cases mark <;> try rfl
    have hne : d ≠ '-' := fun heq => hblock ⟨hchar.symm, heq ▸ hd⟩
    simpa [goesOn] using hne
  split at h
  · rename_i hquote
    subst hquote
    split at h
    · cases h
    · rename_i hstring
      cases h
      obtain ⟨body, hreads, hbody⟩ := body_of_scanString hstring
      exact ⟨_, .cons hreads, .str hbody, fun _ _ => rfl⟩
  split at h
  · rename_i hquote
    subst hquote
    split at h
    · cases h
    · rename_i hchar
      cases h
      obtain ⟨body, hreads, hbody⟩ := body_of_scanChar hchar
      exact ⟨_, .cons hreads, .char hbody, fun _ _ => rfl⟩
  split at h
  · rename_i hdigit
    simp only at h
    split at h
    · rename_i hlt
      cases h
      obtain ⟨hrun, hstops⟩ := scanRun_longest Char.isDigit (pos + 1) cs
      have hreads := scanRun_reads Char.isDigit (pos + 1) cs
      rw [← utf8Size_of_isDigit hdigit] at hreads hrun hstops hlt ⊢
      exact ⟨_, .cons hreads, .int (List.forall_mem_cons.mpr ⟨hdigit, hrun⟩)
        (Int64.toInt_ofNat_of_lt hlt), hstops⟩
    · cases h
  split at h
  · rename_i hstart
    cases h
    obtain ⟨hrun, hstops⟩ := scanRun_longest isNamePart (pos + c.utf8Size) cs
    refine ⟨_, .cons (scanRun_reads isNamePart _ cs), lexeme_nameToken ?_, ?_⟩
    · simpa [isWord, hstart] using hrun
    · rwa [goesOn_nameToken]
  split at h
  · rename_i hsymbol
    cases h
    obtain ⟨hrun, hstops⟩ := scanRun_longest isSymbol (pos + c.utf8Size) cs
    have hreads : Cursor.Reads ⟨pos, c :: cs⟩ _ _ := .cons (scanRun_reads isSymbol _ cs)
    refine ⟨_, hreads, lexeme_symbolToken (List.cons_ne_nil _ _)
      (List.forall_mem_cons.mpr ⟨hsymbol, hrun⟩) ?_, ?_⟩
    · rw [← startsLineComment_stops _ hstops, ← hreads.rest]
      exact hline
    · rwa [goesOn_symbolToken]
  · cases h

/-- A piece that is a token is a lexeme that the next character does not go on with. -/
theorem lexeme_of_scanPiece (h : scanPiece pos c cs = .ok (some token, next)) :
    ∃ lexeme, Cursor.Reads ⟨pos, c :: cs⟩ lexeme next ∧ Lexeme lexeme token ∧
      Stops (goesOn token) next.rest := by
  unfold scanPiece at h
  split at h
  · cases h
  split at h
  · split at h <;> cases h
  split at h
  · cases h
  · rename_i hblock hline
    split at h
    · cases h
    · rename_i htoken
      cases h
      exact lexeme_of_scanToken htoken hblock (Bool.eq_false_iff.mpr hline)

end Lexer

end Lamina
