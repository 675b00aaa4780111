import Lamina.Text.Position

/-!
# Two ways to a position

Both computations of a line and a column say the same at every place between two characters: the
walk over the text goes through all characters before the place (`Position.scan_eq`), and the index
finds the line that the place is on and counts the characters before it there
(`LineIndex.position_eq`).
-/

namespace Lamina

theorem byteLength_append (front back : List Char) :
    byteLength (front ++ back) = byteLength front + byteLength back := by
  induction front with
  | nil => exact (Nat.zero_add _).symm
  | cons c cs ih => rw [List.cons_append, byteLength, byteLength, ih, Nat.add_assoc]

theorem byteLength_pos {cs : List Char} (h : cs ≠ []) : 0 < byteLength cs := by
  cases cs with
  | nil => contradiction
  | cons c cs =>
    have := c.utf8Size_pos
    rw [byteLength]
    omega

theorem utf8ByteSize_ofList (cs : List Char) : (String.ofList cs).utf8ByteSize = byteLength cs := by
  induction cs with
  | nil => rfl
  | cons c cs ih =>
    rw [← List.singleton_append, String.ofList_append, String.utf8ByteSize_append, ih,
      List.singleton_append, byteLength]
    simp

theorem byteLength_toList (source : String) : byteLength source.toList = source.utf8ByteSize := by
  rw [← utf8ByteSize_ofList, String.ofList_toList]

/-- The character boundaries of a text are the bytes behind its first characters. -/
theorem isValid_iff {source byte} :
    String.Pos.Raw.IsValid source ⟨byte⟩ ↔
    ∃ before after, source.toList = before ++ after ∧ byteLength before = byte := by
  rw [String.Pos.Raw.isValid_iff_exists_append]
  constructor
  · rintro ⟨before, after, rfl, hbyte⟩
    refine ⟨before.toList, after.toList, String.toList_append, ?_⟩
    rw [byteLength_toList]
    exact (congrArg String.Pos.Raw.byteIdx hbyte).symm
  · rintro ⟨before, after, hsource, rfl⟩
    refine ⟨String.ofList before, String.ofList after, ?_, ?_⟩
    · rw [← String.ofList_append, ← hsource, String.ofList_toList]
    · rw [← utf8ByteSize_ofList]
      rfl

namespace Position

/-- The position behind a character. -/
def advance (here : Position) (c : Char) : Position :=
  if c = '\n' then ⟨here.line + 1, 1⟩ else ⟨here.line, here.column + 1⟩

/-- The position behind a run of characters at the start of a text. -/
def behind (before : List Char) : Position := before.foldl advance ⟨1, 1⟩

/-- The characters that start before a byte; the first of them starts at byte `offset`. -/
def startingBefore (byte : Nat) : Nat → List Char → List Char
  | _, [] => []
  | offset, c :: cs =>
    if byte ≤ offset then [] else c :: startingBefore byte (offset + c.utf8Size) cs

theorem scanFrom_eq (byte offset : Nat) (here : Position) (cs : List Char) :
    scanFrom byte offset here cs = (startingBefore byte offset cs).foldl advance here := by
  induction cs generalizing offset here with
  | nil => rfl
  | cons c cs ih =>
    rw [scanFrom, startingBefore]
    split
    · rfl
    · exact ih _ _

theorem startingBefore_append (offset : Nat) (before after : List Char) :
    startingBefore (offset + byteLength before) offset (before ++ after) = before := by
  induction before generalizing offset with
  | nil =>
    cases after with
    | nil => rfl
    | cons c cs => exact if_pos (Nat.le_refl _)
  | cons c cs ih =>
    have hpos : 0 < byteLength (c :: cs) := byteLength_pos nofun
    rw [List.cons_append, startingBefore, if_neg (by omega), byteLength, ← Nat.add_assoc, ih]

theorem startingBefore_prefix {one two : Nat} (h : one ≤ two) (offset : Nat) (cs : List Char) :
    startingBefore one offset cs <+: startingBefore two offset cs := by
  induction cs generalizing offset with
  | nil => exact List.prefix_refl []
  | cons c cs ih =>
    rw [startingBefore, startingBefore]
    split
    · exact List.nil_prefix
    · rw [if_neg (by omega)]
      exact (List.prefix_cons_inj c).mpr (ih _)

theorem scan_eq {source before after} (h : source.toList = before ++ after) :
    scan source (byteLength before) = behind before := by
  have hbefore := startingBefore_append 0 before after
  rw [Nat.zero_add, ← h] at hbefore
  rw [scan, scanFrom_eq, hbefore]
  rfl

theorem startingBefore_of_le {byte offset cs} (h : offset + byteLength cs ≤ byte) :
    startingBefore byte offset cs = cs := by
  induction cs generalizing offset with
  | nil => rfl
  | cons c cs ih =>
    have hpos := c.utf8Size_pos
    rw [byteLength] at h
    rw [startingBefore, if_neg (by omega), ih (by omega)]

/-- Behind the end of a text every byte has the position of the end. -/
theorem scan_of_le {source byte} (h : byteLength source.toList ≤ byte) :
    scan source byte = behind source.toList := by
  rw [scan, scanFrom_eq, startingBefore_of_le (by omega)]
  rfl

/-! ## Order -/

/-- A position is on an earlier line than another, or further left on the same line. -/
def Earlier (one two : Position) : Prop :=
  one.line < two.line ∨ one.line = two.line ∧ one.column < two.column

theorem earlier_advance (here : Position) (c : Char) : here.Earlier (here.advance c) := by
  unfold advance Earlier
  split <;> simp

theorem Earlier.trans {one two three : Position} (h : one.Earlier two) (h' : two.Earlier three) :
    one.Earlier three := by
  unfold Earlier at *
  omega

/-- Every character leads to a later position. -/
theorem earlier_foldl (here : Position) {cs : List Char} (h : cs ≠ []) :
    here.Earlier (cs.foldl advance here) := by
  induction cs generalizing here with
  | nil => exact absurd rfl h
  | cons c cs ih =>
    rw [List.foldl_cons]
    by_cases hcs : cs = []
    · rw [hcs]
      exact earlier_advance here c
    · exact (earlier_advance here c).trans (ih (here.advance c) hcs)

theorem earlier_behind (before : List Char) {more : List Char} (h : more ≠ []) :
    (behind before).Earlier (behind (before ++ more)) := by
  rw [behind, behind, List.foldl_append]
  exact earlier_foldl _ h

/-- Positions do not run back along a text. -/
theorem scan_mono (source : String) {one two : Nat} (h : one ≤ two) :
    scan source one = scan source two ∨ (scan source one).Earlier (scan source two) := by
  obtain ⟨more, hmore⟩ := startingBefore_prefix h 0 source.toList
  rw [scan, scanFrom_eq, scan, scanFrom_eq, ← hmore, List.foldl_append]
  by_cases hnil : more = []
  · rw [hnil]
    exact .inl rfl
  · exact .inr (earlier_foldl _ hnil)

end Position

namespace LineIndex

/-- Bisection finds the last line that starts at or before a byte, if the lines up to it do and the
others do not. -/
theorem lineFrom_eq (index : LineIndex) {byte line : Nat} (hline : line < index.lines.size)
    (hfront : ∀ i start text, index.lines[i]? = some (start, text) → i ≤ line → start ≤ byte)
    (hback : ∀ i start text, index.lines[i]? = some (start, text) → line < i → byte < start)
    {lo hi : Nat} (hlo : lo ≤ line) (hhi : line < hi) (hsize : hi ≤ index.lines.size) :
    index.lineFrom byte lo hi = line := by
  fun_induction lineFrom index byte lo hi with
  | case1 lo hi hgap hnone =>
    rw [Array.getElem?_eq_none_iff] at hnone
    omega
  | case2 lo hi hgap start text hmid hle ih =>
    refine ih ?_ hhi hsize
    -- the middle line starts early enough, so it is not behind the one sought
    apply Nat.le_of_not_lt
    intro hlt
    have := hback _ _ _ hmid hlt
    omega
  | case3 lo hi hgap start text hmid hgt ih =>
    have hlt : line < (lo + hi) / 2 := by
      apply Nat.lt_of_not_le
      intro hle
      exact hgt (hfront _ _ _ hmid hle)
    exact ih hlo hlt (by omega)
  | case4 lo hi hgap => omega

theorem charsIn_eq (before after : List Char) :
    charsIn (byteLength before) (before ++ after) = some before.length := by
  induction before with
  | nil => cases after <;> rfl
  | cons c cs ih =>
    have hpos := c.utf8Size_pos
    obtain ⟨bytes, hbytes⟩ : ∃ bytes, byteLength (c :: cs) = bytes + 1 :=
      ⟨byteLength (c :: cs) - 1, by rw [byteLength]; omega⟩
    rw [hbytes, List.cons_append, charsIn, if_pos (by rw [← hbytes, byteLength]; omega), ← hbytes,
      byteLength, Nat.add_sub_cancel_left, ih]
    rfl

theorem lt_of_mem_linesFrom {offset cs entry} (h : entry ∈ linesFrom offset cs) :
    offset < entry.1 := by
  induction cs generalizing offset with
  | nil => cases h
  | cons c cs ih =>
    rw [linesFrom] at h
    split at h
    · rcases List.mem_cons.mp h with rfl | h
      · exact Nat.lt_succ_self offset
      · exact Nat.lt_trans (Nat.lt_succ_self offset) (ih h)
    · exact Nat.lt_of_le_of_lt (Nat.le_add_right _ _) (ih h)

/-- The lines of a text, from one on that starts at byte `start` and of which the characters `front`
are passed already. Where the characters `before` end, a line is cut: those before it start no later
than it does, and those behind it start behind the cut. -/
theorem linesFrom_split (start line : Nat) (front before after : List Char) :
    ∃ earlier start' front' later,
      (start, front ++ (before ++ after)) ::
          linesFrom (start + byteLength front) (before ++ after) =
        earlier ++ (start', front' ++ after) :: later ∧
      start ≤ start' ∧
      start' + byteLength front' = start + byteLength front + byteLength before ∧
      (∀ entry ∈ earlier, entry.1 ≤ start') ∧
      (∀ entry ∈ later, start' + byteLength front' < entry.1) ∧
      before.foldl Position.advance ⟨line, front.length + 1⟩ =
        ⟨line + earlier.length, front'.length + 1⟩ := by
  induction before generalizing start line front with
  | nil =>
    exact ⟨[], start, front, _, rfl, Nat.le_refl _, rfl, nofun,
      fun entry hentry => lt_of_mem_linesFrom hentry, rfl⟩
  | cons c cs ih =>
    by_cases hc : c = '\n'
    · -- a line ends, and the next one has no character passed yet
      subst hc
      obtain ⟨earlier, start', front', later, hlines, hstart, hplace, hearlier, hlater, hfold⟩ :=
        ih (start + byteLength front + 1) (line + 1) []
      have hsize : byteLength ('\n' :: cs) = 1 + byteLength cs := rfl
      rw [List.nil_append] at hlines
      refine ⟨(start, front ++ ('\n' :: cs ++ after)) :: earlier, start', front', later, ?_,
        by omega, ?_, ?_, hlater, ?_⟩
      · rw [List.cons_append, linesFrom, if_pos rfl, List.cons_append, ← hlines]
        rfl
      · rw [hplace, hsize, byteLength]
        omega
      · exact List.forall_mem_cons.mpr ⟨by omega, hearlier⟩
      · have hadvance : Position.advance ⟨line, front.length + 1⟩ '\n' = ⟨line + 1, 1⟩ := rfl
        rw [List.foldl_cons, hadvance, List.length_cons, Nat.add_comm earlier.length,
          ← Nat.add_assoc]
        exact hfold
    · obtain ⟨earlier, start', front', later, hlines, hstart, hplace, hearlier, hlater, hfold⟩ :=
        ih start line (front ++ [c])
      have hsize : byteLength (front ++ [c]) = byteLength front + c.utf8Size := by
        rw [byteLength_append]
        rfl
      rw [hsize] at hlines hplace
      refine ⟨earlier, start', front', later, ?_, hstart, ?_, hearlier, hlater, ?_⟩
      · rw [← hlines, List.cons_append, linesFrom, if_neg hc]
        simp [Nat.add_assoc]
      · rw [hplace, byteLength]
        omega
      · rw [List.foldl_cons, Position.advance, if_neg hc]
        rw [List.length_append] at hfold
        exact hfold

/-- The index says the same as a walk over the characters before a place. -/
theorem position_eq {source before after} (h : source.toList = before ++ after) :
    (ofText source).position (byteLength before) = Position.behind before := by
  obtain ⟨earlier, start, front, later, hlines, -, hplace, hearlier, hlater, hfold⟩ :=
    linesFrom_split 0 1 [] before after
  rw [List.nil_append, ← h, byteLength, Nat.zero_add] at hlines
  rw [byteLength, Nat.add_zero, Nat.zero_add] at hplace
  have hlist : (ofText source).lines = (earlier ++ (start, front ++ after) :: later).toArray := by
    rw [← hlines]
    rfl
  have hbyte : min (byteLength before) (ofText source).size = byteLength before := by
    apply Nat.min_eq_left
    show byteLength before ≤ byteLength source.toList
    rw [h, byteLength_append]
    exact Nat.le_add_right _ _
  have hline : (ofText source).lineFrom (byteLength before) 0 (ofText source).lines.size =
      earlier.length := by
    refine lineFrom_eq _ ?_ ?_ ?_ (Nat.zero_le _) ?_ (Nat.le_refl _)
    · simp [hlist]
    · intro i start' text hentry hi
      rw [hlist, List.getElem?_toArray] at hentry
      have hle : start' ≤ start := by
        rcases Nat.lt_or_eq_of_le hi with hlt | rfl
        · rw [List.getElem?_append_left hlt] at hentry
          exact hearlier _ (List.mem_of_getElem? hentry)
        · rw [List.getElem?_append_right (Nat.le_refl _), Nat.sub_self] at hentry
          cases hentry
          exact Nat.le_refl _
      omega
    · intro i start' text hentry hi
      obtain ⟨k, rfl⟩ : ∃ k, i = earlier.length + 1 + k := ⟨i - earlier.length - 1, by omega⟩
      rw [hlist, List.getElem?_toArray, List.getElem?_append_right (by omega),
        show earlier.length + 1 + k - earlier.length = k + 1 by omega,
        List.getElem?_cons_succ] at hentry
      have := hlater _ (List.mem_of_getElem? hentry)
      omega
    · simp [hlist]
  unfold position
  rw [hbyte]
  simp only [hline]
  rw [hlist, List.getElem?_toArray, List.getElem?_append_right (Nat.le_refl _), Nat.sub_self]
  simp only [List.getElem?_cons_zero]
  rw [← hplace, Nat.add_sub_cancel_left, charsIn_eq, Position.behind]
  rw [Nat.add_comm 1] at hfold
  exact hfold.symm

theorem position_of_le {source byte} (h : byteLength source.toList ≤ byte) :
    (ofText source).position byte = Position.behind source.toList := by
  have hend := position_eq (List.append_nil source.toList).symm
  unfold position at hend ⊢
  have hmin : min byte (ofText source).size = byteLength source.toList := Nat.min_eq_right h
  have hmin' : min (byteLength source.toList) (ofText source).size = byteLength source.toList :=
    Nat.min_self _
  rw [hmin'] at hend
  rw [hmin]
  exact hend

end LineIndex

/-- A line with a character of two bytes, and an empty line behind it. -/
def twoLines : String := "aé\n"

end Lamina
