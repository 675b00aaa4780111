import Mathlib.Data.List.Infix
import Lamina.Native.Sources
import Lamina.Proofs.Core.Accepts
import Lamina.Proofs.Flat.CScope
import Lamina.Proofs.Flat.Tables

/-!
# Names in C text

Every name that the C text of a program introduces is a fixed start and a number or a mangled source
name. Mangling writes the bytes of a name in a code in which no code word starts another, so that
different names stay different; and the starts keep the names of one kind apart from those of the
others, from the words of C and from the names of the runtime.
-/

namespace Lamina.Flat

open Lamina.Core (NodeId Module)

variable {c : Char} {p : Plan} {i : Nat} {entry : NodeId} {o : Outline}

/-! ## Codes -/

/-- A code in which no code word starts another: its words can be told apart in any text. -/
structure PrefixFree {α β : Type} (code : α → List β) : Prop where
  ne_nil : ∀ a, code a ≠ []
  eq_of_start : ∀ {a b}, code a <+: code b → a = b

/-- What is written in such a code can be read in one way only. -/
theorem PrefixFree.flatMap_injective {α β : Type} {code : α → List β} (h : PrefixFree code) :
    Function.Injective fun word : List α => word.flatMap code := by
  intro word other heq
  induction word generalizing other with
  | nil =>
    cases other with
    | nil => rfl
    | cons b rest => exact absurd (List.append_eq_nil_iff.mp heq.symm).1 (h.ne_nil b)
  | cons a word ih =>
    cases other with
    | nil => exact absurd (List.append_eq_nil_iff.mp heq).1 (h.ne_nil a)
    | cons b other =>
      simp only [List.flatMap_cons] at heq
      have hfirst : code a <+: code b ++ other.flatMap code := heq ▸ List.prefix_append _ _
      have hsame : a = b := by
        rcases List.prefix_or_prefix_of_prefix hfirst (List.prefix_append _ _) with hab | hba
        · exact h.eq_of_start hab
        · exact (h.eq_of_start hba).symm
      subst hsame
      rw [ih (List.append_cancel_left heq)]

/-! ## Mangling -/

/-- How a byte of a name is written. -/
def byteCode (b : UInt8) : List Char :=
  if isPlain (Char.ofUInt8 b) then [Char.ofUInt8 b]
  else if b = 95 then ['_', '_']
  else '_' :: (Text.hexByte b).toList

theorem toNat_of_isPlain (h : isPlain c) : c.toNat < 128 := by
  simp only [isPlain, Bool.or_eq_true, Bool.and_eq_true, decide_eq_true_eq, Char.le_def,
    UInt32.le_iff_toNat_le] at h
  have hc : c.toNat = c.val.toNat := rfl
  rcases h with (h | h) | h
  · exact Nat.lt_of_le_of_lt h.2 (by decide)
  · exact Nat.lt_of_le_of_lt h.2 (by decide)
  · exact Nat.lt_of_le_of_lt h.2 (by decide)

/-- A character up to 127 is its own byte; the bytes of any other are above 127. -/
theorem utf8EncodeChar_cases (c : Char) :
    (c.toNat < 128 ∧ String.utf8EncodeChar c = [UInt8.ofNat c.toNat]) ∨
      (128 ≤ c.toNat ∧ ∀ b ∈ String.utf8EncodeChar c, 128 ≤ b.toNat) := by
  have hc : c.toNat = c.val.toNat := rfl
  fun_cases String.utf8EncodeChar c with
  | case1 v h => exact .inl ⟨by omega, rfl⟩
  | case2 v h h' =>
    refine .inr ⟨by omega, ?_⟩
    simp
    omega
  | case3 v h h' h'' =>
    refine .inr ⟨by omega, ?_⟩
    simp
    omega
  | case4 v h h' h'' =>
    refine .inr ⟨by omega, ?_⟩
    simp
    omega

theorem toList_hexByte (b : UInt8) :
    (Text.hexByte b).toList = [Nat.digitChar (b.toNat / 16), Nat.digitChar (b.toNat % 16)] :=
  String.toList_ofList

theorem digitChar_injOn {j : Nat} (hi : i < 16) (hj : j < 16)
    (h : Nat.digitChar i = Nat.digitChar j) : i = j := by
  have hall : ∀ i < 16, ∀ j < 16, Nat.digitChar i = Nat.digitChar j → i = j := by decide
  exact hall i hi j hj h

theorem isPlain_digitChar (hi : i < 16) : isPlain (Nat.digitChar i) := by
  have hall : ∀ i < 16, isPlain (Nat.digitChar i) := by decide
  exact hall i hi

/-- A byte is written in one of three ways, of which the second character tells the last two
apart. -/
theorem byteCode_cases (b : UInt8) :
    (isPlain (Char.ofUInt8 b) ∧ byteCode b = [Char.ofUInt8 b]) ∨
      (b = 95 ∧ byteCode b = ['_', '_']) ∨
      byteCode b = ['_', Nat.digitChar (b.toNat / 16), Nat.digitChar (b.toNat % 16)] := by
  unfold byteCode
  split
  · exact .inl ⟨‹_›, rfl⟩
  · split
    · exact .inr (.inl ⟨‹_›, rfl⟩)
    · exact .inr (.inr (by rw [toList_hexByte]))

theorem toNat_ofUInt8 (b : UInt8) : (Char.ofUInt8 b).toNat = b.toNat := by
  show b.toUInt32.toNat = b.toNat
  exact UInt8.toNat_toUInt32 b

theorem ofUInt8_injective {b b' : UInt8} (h : Char.ofUInt8 b = Char.ofUInt8 b') : b = b' := by
  have hnat := congrArg Char.toNat h
  rw [toNat_ofUInt8, toNat_ofUInt8] at hnat
  exact UInt8.toNat_inj.mp hnat

theorem byteCode_prefixFree : PrefixFree byteCode := by
  have hmark : ¬ isPlain '_' := by decide
  have hdigit (i : Nat) (hi : i < 16) : '_' ≠ Nat.digitChar i :=
    fun heq => hmark (heq ▸ isPlain_digitChar hi)
  have hbyte (b : UInt8) : b.toNat / 16 < 16 := by
    have := b.toNat_lt
    omega
  refine ⟨fun b => ?_, fun {b b'} h => ?_⟩
  · rcases byteCode_cases b with ⟨_, hb⟩ | ⟨_, hb⟩ | hb <;> simp [hb]
  · rcases byteCode_cases b with ⟨hb, heq⟩ | ⟨hb, heq⟩ | heq <;>
      rcases byteCode_cases b' with ⟨hb', heq'⟩ | ⟨hb', heq'⟩ | heq' <;>
      rw [heq, heq'] at h <;> simp only [List.cons_prefix_cons] at h
    · exact ofUInt8_injective h.1
    · exact absurd (h.1 ▸ hb) hmark
    · exact absurd (h.1 ▸ hb) hmark
    · exact absurd (h.1 ▸ hb') hmark
    · rw [hb, hb']
    · exact absurd h.2.1 (hdigit _ (hbyte b'))
    · exact absurd (h.1 ▸ hb') hmark
    · exact absurd h.2.1.symm (hdigit _ (hbyte b))
    · have hhigh := digitChar_injOn (hbyte b) (hbyte b') h.2.1
      have hlow := digitChar_injOn (Nat.mod_lt _ (by decide)) (Nat.mod_lt _ (by decide)) h.2.2.1
      exact UInt8.toNat_inj.mp (by omega)

theorem toList_escaped (bytes : List UInt8) :
    (String.join (bytes.map fun byte => "_" ++ Text.hexByte byte)).toList =
      bytes.flatMap fun byte => '_' :: (Text.hexByte byte).toList := by
  simp [List.flatMap_map]

/-- A mangled character is its bytes in that code. -/
theorem toList_mangleChar (c : Char) :
    (mangleChar c).toList = (String.utf8EncodeChar c).flatMap byteCode := by
  rcases utf8EncodeChar_cases c with ⟨hc, hbytes⟩ | ⟨hc, hbytes⟩
  · have hnat : (UInt8.ofNat c.toNat).toNat = c.toNat := by
      rw [UInt8.toNat_ofNat', Nat.mod_eq_of_lt (by omega)]
    have hchar : Char.ofUInt8 (UInt8.ofNat c.toNat) = c := by
      apply Char.toNat_inj.mp
      rw [toNat_ofUInt8, hnat]
    have hmark : UInt8.ofNat c.toNat = 95 ↔ c = '_' := by
      rw [← UInt8.toNat_inj, hnat, ← Char.toNat_inj]
      rfl
    rw [hbytes, List.flatMap_singleton]
    unfold mangleChar byteCode
    simp only [hchar, hmark, hbytes]
    split
    · simp
    · split
      · rfl
      · simp
  · have hplain : ¬ isPlain c := fun h => by
      have := toNat_of_isPlain h
      omega
    have hmark : c ≠ '_' := by
      rintro rfl
      exact absurd hc (by decide)
    unfold mangleChar
    rw [if_neg hplain, if_neg hmark, toList_escaped]
    refine List.flatMap_congr fun b hb => ?_
    have hbyte := hbytes b hb
    unfold byteCode
    rw [if_neg, if_neg]
    · rintro rfl
      exact absurd hbyte (by decide)
    · intro h
      have := toNat_of_isPlain h
      rw [toNat_ofUInt8] at this
      omega

/-- A mangled name is the bytes of the name in that code. -/
theorem toList_mangle (name : String) :
    (mangle name).toList = (Text.utf8 name).flatMap byteCode := by
  simp [mangle, Text.utf8, toList_mangleChar, List.flatMap_map, List.flatMap_assoc]

theorem utf8_injective : Function.Injective Text.utf8 := by
  intro text other h
  have hencode : text.toList.utf8Encode = other.toList.utf8Encode := by
    simp only [List.utf8Encode]
    exact congrArg _ h
  rw [← String.toByteArray_ofList, ← String.toByteArray_ofList, String.toByteArray_inj] at hencode
  simpa using hencode

/-- Different names are mangled differently. -/
theorem mangle_injective : Function.Injective mangle := by
  intro name other h
  apply utf8_injective
  apply byteCode_prefixFree.flatMap_injective
  simp only [← toList_mangle, h]

/-! ## Identifiers -/

/-- Can a character stand in a C identifier? -/
def isWordChar (c : Char) : Bool := isPlain c || c == '_'

/-- The words that C reserves. -/
def cKeywords : List String :=
  ["auto", "break", "case", "char", "const", "continue", "default", "do", "double", "else", "enum",
    "extern", "float", "for", "goto", "if", "inline", "int", "long", "register", "restrict",
    "return", "short", "signed", "sizeof", "static", "struct", "switch", "typedef", "union",
    "unsigned", "void", "volatile", "while", "_Alignas", "_Alignof", "_Atomic", "_Bool", "_Complex",
    "_Generic", "_Imaginary", "_Noreturn", "_Static_assert", "_Thread_local"]

/-- Is a text a C identifier? -/
def isIdentifier (text : String) : Bool :=
  text.toList.head?.any (fun c => !c.isDigit) && text.toList.all isWordChar &&
    !cKeywords.contains text

theorem isWordChar_of_isDigit (h : c.isDigit) : isWordChar c := by
  simp only [Char.isDigit, Bool.and_eq_true, decide_eq_true_eq] at h
  simp only [isWordChar, isPlain, Char.le_def, h.1, h.2, decide_true, Bool.and_self, Bool.or_true,
    Bool.true_or]

/-- A mangled name has letters, digits and underscores only. -/
theorem isWordChar_of_mem_mangle {name : String} (h : c ∈ (mangle name).toList) : isWordChar c := by
  rw [toList_mangle] at h
  obtain ⟨b, _, hc⟩ := List.mem_flatMap.mp h
  have hmark : isWordChar '_' := by decide
  have hdigit {i : Nat} (hi : i < 16) : isWordChar (Nat.digitChar i) := by
    rw [isWordChar, isPlain_digitChar hi, Bool.true_or]
  rcases byteCode_cases b with ⟨hb, heq⟩ | ⟨_, heq⟩ | heq <;> rw [heq] at hc
  · rw [List.mem_singleton.mp hc, isWordChar, hb, Bool.true_or]
  · simp only [List.mem_cons, List.not_mem_nil, or_false, or_self] at hc
    exact hc ▸ hmark
  · have hbyte := b.toNat_lt
    simp only [List.mem_cons, List.not_mem_nil, or_false] at hc
    rcases hc with rfl | rfl | rfl
    · exact hmark
    · exact hdigit (by omega)
    · exact hdigit (Nat.mod_lt _ (by decide))

theorem isWordChar_of_mem_digits {n : Nat} (h : c ∈ Nat.toDigits 10 n) : isWordChar c :=
  isWordChar_of_isDigit (Nat.isDigit_of_mem_toDigits (by decide) (by decide) h)

/-- A start that no reserved word has, and more characters of identifiers behind it. -/
theorem isIdentifier_append {start rest : String} (hstart : isIdentifier start)
    (hwords : ∀ word ∈ cKeywords, ¬ start.toList <+: word.toList)
    (hrest : ∀ c ∈ rest.toList, isWordChar c) : isIdentifier (start ++ rest) := by
  simp only [isIdentifier, Bool.and_eq_true, Bool.not_eq_true'] at hstart ⊢
  obtain ⟨⟨hfirst, hall⟩, _⟩ := hstart
  refine ⟨⟨?_, ?_⟩, ?_⟩
  · cases hchars : start.toList with
    | nil => simp [hchars] at hfirst
    | cons c cs => simpa [hchars] using hfirst
  · rw [String.toList_append, List.all_append, hall, Bool.true_and]
    exact List.all_eq_true.mpr hrest
  · refine Bool.eq_false_iff.mpr fun hword => ?_
    refine hwords _ (List.contains_iff_mem.mp hword) ?_
    rw [String.toList_append]
    exact List.prefix_append _ _

/-! ## Variables -/

/-- Different variables have different texts. -/
theorem text_injective : Function.Injective Var.text := by
  intro x y h
  rcases CText.eq_of_text_eq h with heq | ⟨node, one, two, rfl, rfl⟩
  · exact heq
  · have hnames : mangle one = mangle two := by
      simpa only [Var.text, String.append_right_inj] using h
    rw [mangle_injective hnames]

theorem isIdentifier_text (x : Var) : isIdentifier x.text := by
  cases x with
  | temp n =>
    refine isIdentifier_append (by decide) (by decide) fun c hc => ?_
    rw [Nat.toString_eq_ofList_toDigits, String.toList_ofList] at hc
    exact isWordChar_of_mem_digits hc
  | param node name =>
    show isIdentifier ("p" ++ toString node ++ "_" ++ mangle name)
    rw [String.append_assoc, String.append_assoc]
    refine isIdentifier_append (by decide) (by decide) fun c hc => ?_
    simp only [String.toList_append, Nat.toString_eq_ofList_toDigits, String.toList_ofList,
      List.mem_append] at hc
    rcases hc with hc | hc | hc
    · exact isWordChar_of_mem_digits hc
    · rw [List.mem_singleton.mp hc]
      decide
    · exact isWordChar_of_mem_mangle hc
  | result => decide
  | mainResult => decide

/-- No variable hides a function, whether of the program or of the runtime. -/
theorem text_start (x : Var) : ¬ "lz_".toList <+: x.text.toList := by
  cases x <;> simp [Var.text]

/-! ## Functions -/

/-- The name of the implementation of a function. -/
inductive IsSymbol : String → Prop
  | named (name : String) : IsSymbol ("lz_fn_" ++ mangle name)
  | lifted (index : Nat) : IsSymbol ("lz_anon_" ++ toString index)

/-- The names that the runtime keeps to itself. -/
def privateNames : List String :=
  ["lz_malloc", "lz_kind", "lz_copy_closure", "lz_int_arg", "lz_equal", "lz_fn1", "lz_fn2",
    "lz_fn3", "lz_fn4", "lz_fn5", "lz_fn6", "lz_fn7", "lz_fn8"]

/-- The names of the C text that every program has. -/
def fixedNames : List String := ["lz_init", "lz_program", "main"]

theorem utf8_eq_data (text : String) : Text.utf8 text = text.toByteArray.data.toList := by
  rw [← String.ofList_toList (s := text), String.toByteArray_ofList]
  simp [Text.utf8, List.utf8Encode]

theorem utf8_ofLines (lines : List String) :
    Text.utf8 (Native.ofLines lines) =
      lines.flatMap fun line => line.toByteArray.data.toList ++ [10] := by
  simp only [Native.ofLines, Text.utf8, String.toList_join, List.flatMap_map, String.toList_append,
    List.flatMap_assoc, List.flatMap_append, ← utf8_eq_data]
  rfl

theorem utf8_inside {one two : String} (h : one.toList <:+: two.toList) :
    Text.utf8 one <:+: Text.utf8 two := by
  obtain ⟨before, after, heq⟩ := h
  refine ⟨before.flatMap String.utf8EncodeChar, after.flatMap String.utf8EncodeChar, ?_⟩
  simp only [Text.utf8, ← heq, List.flatMap_append]

/-- The declarations of the runtime leave the starts of symbols free. -/
theorem header_symbols : (¬ Text.utf8 "lz_fn_" <:+: Text.utf8 Native.headerText) ∧
    ¬ Text.utf8 "lz_anon_" <:+: Text.utf8 Native.headerText := by
  -- of a long text the kernel gets to the bytes, but not to the characters
  unfold Native.headerText
  rw [utf8_ofLines]
  decide +kernel

namespace IsSymbol

variable {symbol : String}

theorem identifier (h : IsSymbol symbol) : isIdentifier symbol := by
  cases h with
  | named name =>
    exact isIdentifier_append (by decide) (by decide) fun c hc => isWordChar_of_mem_mangle hc
  | lifted index =>
    refine isIdentifier_append (by decide) (by decide) fun c hc => ?_
    rw [Nat.toString_eq_ofList_toDigits, String.toList_ofList] at hc
    exact isWordChar_of_mem_digits hc

/-- A symbol starts in one of two ways. -/
theorem starts (h : IsSymbol symbol) :
    "lz_fn_".toList <+: symbol.toList ∨ "lz_anon_".toList <+: symbol.toList := by
  cases h <;> simp only [String.toList_append]
  · exact .inl (List.prefix_append _ _)
  · exact .inr (List.prefix_append _ _)

/-- A symbol stands nowhere in the declarations of the runtime, not even in part of a name. -/
theorem not_in_header (h : IsSymbol symbol) : ¬ symbol.toList <:+: Native.headerText.toList := by
  intro hinside
  rcases h.starts with hstart | hstart
  · exact header_symbols.1 (utf8_inside (hstart.isInfix.trans hinside))
  · exact header_symbols.2 (utf8_inside (hstart.isInfix.trans hinside))

theorem not_fixed (h : IsSymbol symbol) : symbol ∉ fixedNames ++ privateNames := by
  have hfree : ∀ other ∈ fixedNames ++ privateNames,
      ¬ "lz_fn_".toList <+: other.toList ∧ ¬ "lz_anon_".toList <+: other.toList := by decide
  intro hmem
  exact h.starts.elim (hfree symbol hmem).1 (hfree symbol hmem).2

theorem ne_intrinsic (h : IsSymbol symbol) (op : Intrinsic) : symbol ≠ op.symbol := by
  rintro rfl
  have hfree : ¬ "lz_fn_".toList <+: op.symbol.toList ∧
      ¬ "lz_anon_".toList <+: op.symbol.toList := by
    cases op <;> decide
  exact h.starts.elim hfree.1 hfree.2

end IsSymbol

/-! ## Programs -/

/-- The names that the C text of a program declares outside its functions. -/
structure Program.WellNamed (p : Program) : Prop where
  identifier : ∀ f ∈ p.functions, isIdentifier f.symbol
  symbols : (p.functions.toList.map (·.symbol)).Nodup
  /-- No function has a name that the rest of the C text or the runtime uses. -/
  fresh : ∀ f ∈ p.functions, f.symbol ∉ fixedNames ++ privateNames ∧
    (∀ op : Intrinsic, f.symbol ≠ op.symbol) ∧ ¬ f.symbol.toList <:+: Native.headerText.toList
  field : ∀ g ∈ p.globals, isIdentifier g.field
  fields : (p.globals.toList.map (·.field)).Nodup

theorem Plan.parts_symbol (p : Plan) :
    p.parts.map (·.2.2) = (p.globals.map fun g => "lz_fn_" ++ mangle g.2) ++
      (List.range p.lifted.length).map fun index => "lz_anon_" ++ toString index := by
  unfold Plan.parts
  rw [List.map_append, List.map_map, List.map_map, List.range_eq_range', ← List.zipIdx_map_snd 0,
    List.map_map]
  rfl

/-- The symbols of a plan are different where its top-level functions have different names. -/
theorem Plan.symbols_nodup (h : (p.globals.map (·.2)).Nodup) : (p.parts.map (·.2.2)).Nodup := by
  rw [Plan.parts_symbol]
  refine List.nodup_append.mpr ⟨?_, ?_, ?_⟩
  · have hinj : Function.Injective fun name => "lz_fn_" ++ mangle name := fun one two heq =>
      mangle_injective ((String.append_right_inj _).mp heq)
    simpa only [List.map_map, Function.comp_def] using h.map hinj
  · refine List.nodup_range.map fun one two heq => ?_
    have hdigits := congrArg String.toList ((String.append_right_inj _).mp heq)
    rw [Nat.toString_eq_ofList_toDigits, Nat.toString_eq_ofList_toDigits, String.toList_ofList,
      String.toList_ofList] at hdigits
    exact Core.toDigits_injective hdigits
  · rintro one hone two htwo rfl
    obtain ⟨g, _, rfl⟩ := List.mem_map.mp hone
    obtain ⟨index, _, heq⟩ := List.mem_map.mp htwo
    simpa using congrArg String.toList heq

theorem Plan.isSymbol {symbol : String} (h : symbol ∈ p.parts.map (·.2.2)) : IsSymbol symbol := by
  rw [Plan.parts_symbol] at h
  rcases List.mem_append.mp h with h | h
  · obtain ⟨g, _, rfl⟩ := List.mem_map.mp h
    exact .named g.2
  · obtain ⟨index, _, rfl⟩ := List.mem_map.mp h
    exact .lifted index

theorem routine_symbol {part r} (h : p.routine part = .ok r) : part.2.2 = r.symbol := by
  unfold Plan.routine at h
  split at h
  · obtain ⟨t, _, rfl⟩ := ok_of_map h
    rfl
  · cases h

/-- The functions of an assembled program have the symbols of the plan. -/
theorem assemble_symbols (h : p.outline entry = .ok o) (direct : Bool) (m : Module) :
    (o.assemble direct m ⟨0, []⟩).1.functions.toList.map (·.symbol) = p.parts.map (·.2.2) := by
  have hshown : ∀ (r : Routine) instrs, (r.function m instrs).symbol = r.symbol := fun _ _ => rfl
  show (assembleAll direct m o.routines ⟨0, []⟩).1.toArray.toList.map (·.symbol) = _
  rw [List.toList_toArray, assembleAll_map hshown]
  exact map_eq_map_of_forall₂ ((Plan.outline_parts h).imp fun _ _ => routine_symbol)

/-- A program has the names it should where its top-level functions have different ones. -/
theorem assemble_wellNamed (h : p.outline entry = .ok o) (hnames : (p.globals.map (·.2)).Nodup)
    (direct : Bool) (m : Module) : (o.assemble direct m ⟨0, []⟩).1.WellNamed := by
  have hsymbols := assemble_symbols h direct m
  have hfields : o.globals.toList.map (·.field) =
      (p.globals.map (·.2)).map fun name => "g_" ++ mangle name := by
    rw [(Plan.outline_covers h).globals, List.map_map, List.map_map]
    rfl
  have hsymbol : ∀ f ∈ (o.assemble direct m ⟨0, []⟩).1.functions, IsSymbol f.symbol := by
    intro f hf
    refine Plan.isSymbol (p := p) ?_
    rw [← hsymbols]
    exact List.mem_map_of_mem (Array.mem_toList_iff.mpr hf)
  refine ⟨fun f hf => (hsymbol f hf).identifier, ?_, fun f hf => ⟨(hsymbol f hf).not_fixed,
    (hsymbol f hf).ne_intrinsic, (hsymbol f hf).not_in_header⟩, ?_, ?_⟩
  · rw [hsymbols]
    exact Plan.symbols_nodup hnames
  · intro g hg
    have hmem : g.field ∈ o.globals.toList.map (·.field) :=
      List.mem_map_of_mem (Array.mem_toList_iff.mpr hg)
    rw [hfields] at hmem
    obtain ⟨name, _, heq⟩ := List.mem_map.mp hmem
    rw [← heq]
    exact isIdentifier_append (by decide) (by decide) fun c hc => isWordChar_of_mem_mangle hc
  · show (o.globals.toList.map (·.field)).Nodup
    rw [hfields]
    exact hnames.map fun one two heq => mangle_injective ((String.append_right_inj _).mp heq)

theorem functionNames_sublist (decls : List Surface.Decl) :
    (functionNames decls).Sublist (Core.declNames decls) := by
  unfold functionNames Core.declNames
  induction decls with
  | nil => exact .slnil
  | cons decl rest ih =>
    cases decl with
    | function name => simpa [Surface.Decl.bound?] using ih
    | value name body =>
      cases hbody : isFunction body
      · simpa [Surface.Decl.bound?, hbody] using ih.cons name.name
      · simpa [Surface.Decl.bound?, hbody] using ih
    | _ => simpa [Surface.Decl.bound?] using ih

end Lamina.Flat
