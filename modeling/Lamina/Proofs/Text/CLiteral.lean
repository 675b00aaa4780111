import Lamina.Text.Quoted

/-!
# C string literals

How C reads a string literal, and what it reads in the literals that are written for texts: the bytes
of the text (`quoteC_denotes_bytes`).
-/

namespace Lamina.Text

/-- Is a character a digit of an octal escape? -/
def isOctalDigit (c : Char) : Bool := '0' ≤ c && c ≤ '7'

/-- The number that octal digits denote. -/
def octalValue (digits : List Char) : Nat :=
  digits.foldl (fun value c => 8 * value + (c.toNat - '0'.toNat)) 0

/-- The byte that a backslash and one character behind it denote. -/
def simpleEscape? : Char → Option UInt8
  | '\'' => some 39
  | '"' => some 34
  | '?' => some 63
  | '\\' => some 92
  | 'a' => some 7
  | 'b' => some 8
  | 'f' => some 12
  | 'n' => some 10
  | 'r' => some 13
  | 't' => some 9
  | 'v' => some 11
  | _ => none

/-- The octal digits behind a backslash: as many as there are, but no more than three. -/
def octalDigits (cs : List Char) : List Char := (cs.take 3).takeWhile isOctalDigit

/-- The bytes of the characters up to the quotation mark that ends the literal and the text. A
hexadecimal escape has no place in it. -/
def readLiteralRest : List Char → Option (List UInt8)
  | [] => none
  | ['"'] => some []
  | '\\' :: rest =>
    match rest.head?.bind simpleEscape? with
    | some byte => (readLiteralRest (rest.drop 1)).map (byte :: ·)
    | none =>
      let digits := octalDigits rest
      if digits = [] ∨ 256 ≤ octalValue digits then none
      else (readLiteralRest (rest.drop digits.length)).map (.ofNat (octalValue digits) :: ·)
  | c :: rest =>
    if c = '"' ∨ c = '\n' then none
    else (readLiteralRest rest).map (String.utf8EncodeChar c ++ ·)
termination_by cs => cs.length
decreasing_by all_goals simp; try omega

/-- The bytes that a string literal denotes, if the text is one. -/
def readLiteral (text : String) : Option (List UInt8) :=
  match text.toList with
  | '"' :: rest => readLiteralRest rest
  | _ => none

/-- The digits below eight are read as they are written. -/
theorem digitChar_octal {d : Nat} (h : d < 8) :
    isOctalDigit d.digitChar ∧ d.digitChar.toNat - '0'.toNat = d ∧
      simpleEscape? d.digitChar = none := by
  match d, h with
  | 0, _ | 1, _ | 2, _ | 3, _ | 4, _ | 5, _ | 6, _ | 7, _ => decide

theorem readLiteralRest_simple {c byte} (h : simpleEscape? c = some byte) (rest : List Char) :
    readLiteralRest ('\\' :: c :: rest) = (readLiteralRest rest).map (byte :: ·) := by
  rw [readLiteralRest]
  simp [h]

theorem readLiteralRest_plain {c : Char} (hquote : c ≠ '"') (hslash : c ≠ '\\') (hline : c ≠ '\n')
    (rest : List Char) :
    readLiteralRest (c :: rest) = (readLiteralRest rest).map (String.utf8EncodeChar c ++ ·) := by
  rw [readLiteralRest]
  · simp [hquote, hline]
  · simp [hquote]
  · simp [hslash]

theorem octalByte_digits (b : UInt8) : ∀ c ∈ (octalByte b).toList, isOctalDigit c := by
  have hlt : b.toNat < 256 := b.toNat_lt
  rw [octalByte, String.toList_ofList]
  simp only [List.forall_mem_cons]
  refine ⟨(digitChar_octal ?_).1, (digitChar_octal ?_).1, (digitChar_octal ?_).1, nofun⟩ <;> omega

theorem toNat_of_isOctalDigit {c : Char} (h : isOctalDigit c) : 48 ≤ c.toNat ∧ c.toNat ≤ 55 := by
  simpa [isOctalDigit, Char.le_def, UInt32.le_iff_toNat_le] using h

/-- Three octal digits are read together, whatever stands behind them. -/
theorem readLiteralRest_octal (b : UInt8) (rest : List Char) :
    readLiteralRest ('\\' :: ((octalByte b).toList ++ rest)) =
      (readLiteralRest rest).map (b :: ·) := by
  have hlt : b.toNat < 256 := b.toNat_lt
  obtain ⟨hhigh, hhigh', hsimple⟩ := digitChar_octal (show b.toNat / 64 < 8 by omega)
  obtain ⟨hmid, hmid', -⟩ := digitChar_octal (show b.toNat / 8 % 8 < 8 by omega)
  obtain ⟨hlow, hlow', -⟩ := digitChar_octal (show b.toNat % 8 < 8 by omega)
  rw [octalByte, String.toList_ofList]
  generalize (b.toNat / 64).digitChar = high at hhigh hhigh' hsimple ⊢
  generalize (b.toNat / 8 % 8).digitChar = mid at hmid hmid' ⊢
  generalize (b.toNat % 8).digitChar = low at hlow hlow' ⊢
  have hdigits : octalDigits (high :: mid :: low :: rest) = [high, mid, low] := by
    simp [octalDigits, hhigh, hmid, hlow]
  have hvalue : octalValue [high, mid, low] = b.toNat := by
    simp only [octalValue, List.foldl_cons, List.foldl_nil, hhigh', hmid', hlow']
    omega
  rw [readLiteralRest]
  simp [hsimple, hdigits, hvalue, Nat.not_le.mpr hlt]

/-- How a byte can be written in a literal. -/
inductive ByteText (b : UInt8) : List Char → Prop
  | simple {c} (h : simpleEscape? c = some b) : ByteText b ['\\', c]
  | plain {c} (hrange : 0x20 ≤ c.toNat ∧ c.toNat ≤ 0x7e) (hmarks : c ≠ '"' ∧ c ≠ '\\' ∧ c ≠ '?')
      (hbyte : String.utf8EncodeChar c = [b]) : ByteText b [c]
  | octal : ByteText b ('\\' :: (octalByte b).toList)

theorem toNat_ofNat_of_ascii {n : Nat} (h : n ≤ 0x7e) : (Char.ofNat n).toNat = n := by
  have hvalid : n.isValidChar := .inl (by omega)
  rw [Char.ofNat, dif_pos hvalid]
  rfl

theorem quoteCByte_byteText (b : UInt8) : ByteText b (quoteCByte b).toList := by
  have hsimple {byte : UInt8} {c : Char} (hbyte : b = byte) (h : simpleEscape? c = some byte) :
      ByteText b ['\\', c] := .simple (hbyte ▸ h)
  unfold quoteCByte
  split
  · exact hsimple ‹_› rfl
  split
  · exact hsimple ‹_› rfl
  split
  · exact hsimple ‹_› rfl
  split
  · exact hsimple ‹_› rfl
  split
  · exact hsimple ‹_› rfl
  split
  · exact hsimple ‹_› rfl
  split
  · rename_i hquote hslash _ _ _ hmark hrange
    have hnat : (Char.ofNat b.toNat).toNat = b.toNat := toNat_ofNat_of_ascii hrange.2
    have hne {c : Char} (hbyte : b ≠ .ofNat c.toNat) : Char.ofNat b.toNat ≠ c := by
      rintro rfl
      exact hbyte (by rw [hnat, UInt8.ofNat_toNat])
    rw [Char.toString, String.toList_singleton]
    refine .plain (by rwa [hnat]) ⟨hne hquote, hne hslash, hne hmark⟩ ?_
    have hval : (Char.ofNat b.toNat).val.toNat = b.toNat := hnat
    simp [String.utf8EncodeChar, hval, show b.toNat ≤ 127 by omega]
  · rw [String.toList_append]
    exact .octal

/-- There are no two question marks together, nor one at the front. -/
def Unpaired (text : List Char) : Prop := text.head? ≠ some '?' ∧ ¬ ['?', '?'] <:+: text

theorem Unpaired.cons {c rest} (hc : c ≠ '?') (hrest : ¬ ['?', '?'] <:+: rest) :
    Unpaired (c :: rest) := by
  refine ⟨by simpa using hc, ?_⟩
  rw [List.infix_cons_iff, List.cons_prefix_cons]
  exact fun h => h.elim (fun h => hc h.1.symm) hrest

theorem not_infix_append {front rest : List Char} (hfront : ∀ c ∈ front, c ≠ '?')
    (hrest : ¬ ['?', '?'] <:+: rest) : ¬ ['?', '?'] <:+: front ++ rest := by
  induction front with
  | nil => exact hrest
  | cons c front ih =>
    obtain ⟨hc, hfront⟩ := List.forall_mem_cons.mp hfront
    exact (Unpaired.cons hc (ih hfront)).2

namespace ByteText

variable {b : UInt8} {text rest : List Char}

/-- What is written for a byte is read as that byte, whatever stands behind it. -/
theorem reads (h : ByteText b text) (rest : List Char) :
    readLiteralRest (text ++ rest) = (readLiteralRest rest).map (b :: ·) := by
  cases h with
  | simple h => exact readLiteralRest_simple h rest
  | plain hrange hmarks hbyte =>
    obtain ⟨hquote, hslash, _⟩ := hmarks
    rw [List.singleton_append, readLiteralRest_plain hquote hslash (by rintro rfl; simp at hrange),
      hbyte]
    rfl
  | octal => exact readLiteralRest_octal b rest

theorem printable (h : ByteText b text) : ∀ c ∈ text, 0x20 ≤ c.toNat ∧ c.toNat ≤ 0x7e := by
  cases h with
  | simple h =>
    rename_i c
    have hc : 0x20 ≤ c.toNat ∧ c.toNat ≤ 0x7e := by
      unfold simpleEscape? at h
      split at h <;> first | decide | cases h
    simpa using hc
  | plain hrange => simpa using hrange
  | octal =>
    refine List.forall_mem_cons.mpr ⟨by decide, fun c hc => ?_⟩
    have hdigit := toNat_of_isOctalDigit (octalByte_digits b c hc)
    omega

/-- A question mark stands behind a backslash only, so no two of them come together. -/
theorem unpaired (h : ByteText b text) (hrest : Unpaired rest) : Unpaired (text ++ rest) := by
  cases h with
  | simple h =>
    rename_i c
    refine .cons (by decide) fun hpair : ['?', '?'] <:+: c :: rest => ?_
    rw [List.infix_cons_iff, List.cons_prefix_cons] at hpair
    rcases hpair with ⟨_, tail, htail⟩ | hpair
    · exact hrest.1 (htail ▸ rfl)
    · exact hrest.2 hpair
  | plain hrange hmarks => exact .cons hmarks.2.2 hrest.2
  | octal =>
    refine .cons (by decide) (not_infix_append (fun c hc => ?_) hrest.2)
    rintro rfl
    exact absurd (octalByte_digits b _ hc) (by decide)

end ByteText

/-! ## Literals -/

variable (bytes : List UInt8)

/-- The characters between the quotation marks of a literal, and the closing one. -/
def literalRest (bytes : List UInt8) : List Char :=
  bytes.flatMap (fun b => (quoteCByte b).toList) ++ ['"']

theorem toList_quoteC (s : String) : (quoteC s).toList = '"' :: literalRest (utf8 s) := by
  simp [quoteC, literalRest, List.flatMap_map]

theorem readLiteralRest_literalRest : readLiteralRest (literalRest bytes) = some bytes := by
  induction bytes with
  | nil => rw [literalRest, List.flatMap_nil, List.nil_append, readLiteralRest]
  | cons b rest ih =>
    have hreads := (quoteCByte_byteText b).reads (literalRest rest)
    rw [ih] at hreads
    rw [literalRest, List.flatMap_cons, List.append_assoc]
    exact hreads

theorem literalRest_printable : ∀ c ∈ literalRest bytes, 0x20 ≤ c.toNat ∧ c.toNat ≤ 0x7e := by
  intro c hc
  rcases List.mem_append.mp hc with hc | hc
  · obtain ⟨b, -, hc⟩ := List.mem_flatMap.mp hc
    exact (quoteCByte_byteText b).printable c hc
  · rw [List.mem_singleton.mp hc]
    decide

theorem literalRest_unpaired : Unpaired (literalRest bytes) := by
  induction bytes with
  | nil => exact ⟨by decide, by decide⟩
  | cons b rest ih =>
    rw [literalRest, List.flatMap_cons, List.append_assoc]
    exact (quoteCByte_byteText b).unpaired ih

/-- The bytes of a text are those of the string that it is. -/
theorem utf8_eq (s : String) : utf8 s = s.toUTF8.data.toList := by
  have hbytes : s.toUTF8 = s.toList.utf8Encode := by
    rw [← String.toByteArray_ofList, String.ofList_toList]
    rfl
  rw [hbytes, List.utf8Encode, List.data_toByteArray]
  rfl

theorem utf8_injective {s t : String} (h : utf8 s = utf8 t) : s = t := by
  rw [utf8_eq, utf8_eq] at h
  exact String.toByteArray_inj.mp (ByteArray.ext (Array.toList_inj.mp h))

/-- **C string literals denote exactly the bytes of the text.** What is written for a text is one
string literal of C, which is all printable ASCII, so on one line, and has no trigraph in it. It
denotes the bytes of the text in UTF-8, and no other text has the same literal. -/
theorem quoteC_denotes_bytes (s : String) :
    readLiteral (quoteC s) = some s.toUTF8.data.toList ∧
      (∀ c ∈ (quoteC s).toList, 0x20 ≤ c.toNat ∧ c.toNat ≤ 0x7e) ∧
      (∀ c, ¬ ['?', '?', c] <:+: (quoteC s).toList) ∧ ∀ t, quoteC s = quoteC t → s = t := by
  have hreads (s : String) : readLiteral (quoteC s) = some (utf8 s) := by
    rw [readLiteral, toList_quoteC]
    exact readLiteralRest_literalRest _
  refine ⟨utf8_eq s ▸ hreads s, ?_, ?_, ?_⟩
  · rw [toList_quoteC]
    exact List.forall_mem_cons.mpr ⟨by decide, literalRest_printable _⟩
  · intro c hinfix
    rw [toList_quoteC] at hinfix
    have hpair : ['?', '?'] <:+: ['?', '?', c] := ⟨[], [c], rfl⟩
    exact (Unpaired.cons (by decide) (literalRest_unpaired _).2).2 (hpair.trans hinfix)
  · intro t ht
    exact utf8_injective (Option.some.inj (by rw [← hreads s, ht, hreads t]))

end Lamina.Text
