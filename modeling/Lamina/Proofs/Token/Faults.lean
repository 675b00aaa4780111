import Lamina.Proofs.Text.Between
import Lamina.Proofs.Token.Tiling

/-!
# Where lexical errors point

A scanner reports an error at the place where it is, or where it started, and these are places
between two characters.
-/

namespace Lamina

variable {mark : Nat → Prop}

/-- Every place between two characters from here on is a mark. -/
def Cursor.Marked (mark : Nat → Prop) (here : Cursor) : Prop :=
  ∀ front back, here.rest = front ++ back → mark (here.pos + byteLength front)

namespace Cursor.Marked

variable {here next : Cursor} {taken : List Char}

theorem pos (h : Marked mark here) : mark here.pos := h [] here.rest rfl

theorem reads (h : Marked mark here) (hreads : here.Reads taken next) : Marked mark next := by
  intro front back hrest
  have hmark := h (taken ++ front) back (by rw [hreads.rest, hrest, List.append_assoc])
  rwa [byteLength_append, ← Nat.add_assoc, ← hreads.pos] at hmark

end Cursor.Marked

namespace Lexer

variable {pos start : Nat} {c : Char} {cs : List Char} {e : SyntaxError}

theorem scanEscape_at (h : scanEscape pos cs = .error e) (hmark : mark pos) : e.At mark := by
  cases cs with
  | nil =>
    cases h
    exact .point rfl hmark
  | cons c cs =>
    simp only [scanEscape] at h
    repeat' split at h
    all_goals
      cases h
      try exact .point rfl hmark

theorem scanString_at (h : scanString start pos cs = .error e) (hstart : mark start)
    (hmark : Cursor.Marked mark ⟨pos, cs⟩) : e.At mark := by
  fun_induction scanString start pos cs with
  | case1 | case2 =>
    cases h
    exact .point rfl hstart
  | case3 | case6 | case8 => cases h
  | case4 pos cs e hescape =>
    cases h
    exact scanEscape_at hescape (hmark.reads (.char pos '\\' cs)).pos
  | case5 pos cs d middle hescape _ e' hmore _ _ ih =>
    cases h
    obtain ⟨written, hwritten, -⟩ := escape_of_scanEscape hescape
    exact ih hmore (hmark.reads (.cons hwritten))
  | case7 pos c cs _ _ _ e' hmore ih =>
    cases h
    exact ih hmore (hmark.reads (.char pos c cs))

theorem closeQuote_at {here : Cursor} (h : closeQuote start c here = .error e)
    (hstart : mark start) : e.At mark := by
  unfold closeQuote at h
  split at h
  · cases h
  · cases h
    exact .point rfl hstart

theorem scanChar_at (h : scanChar start pos cs = .error e) (hstart : mark start)
    (hmark : Cursor.Marked mark ⟨pos, cs⟩) : e.At mark := by
  cases cs with
  | nil =>
    cases h
    exact .point rfl hstart
  | cons c cs =>
    simp only [scanChar] at h
    split at h
    · rename_i hc
      subst hc
      split at h
      · rename_i hescape
        cases h
        exact scanEscape_at hescape (hmark.reads (.char pos '\\' cs)).pos
      · exact closeQuote_at h hstart
    · split at h
      · cases h
        exact .point rfl hstart
      · exact closeQuote_at h hstart

theorem scanToken_at (h : scanToken pos c cs = .error e)
    (hmark : Cursor.Marked mark ⟨pos, c :: cs⟩) : e.At mark := by
  have hnext := hmark.reads (.char pos c cs)
  unfold scanToken at h
  split at h
  · cases h
  split at h
  · rename_i hc
    subst hc
    split at h
    · rename_i hstring
      cases h
      exact scanString_at hstring hmark.pos hnext
    · cases h
  split at h
  · rename_i hc
    subst hc
    split at h
    · rename_i hchar
      cases h
      exact scanChar_at hchar hmark.pos hnext
    · cases h
  split at h
  · rename_i hdigit
    simp only at h
    split at h
    · cases h
    · cases h
      rw [← utf8Size_of_isDigit hdigit]
      rintro span ⟨⟩
      have hreads := scanRun_reads Char.isDigit (pos + c.utf8Size) cs
      refine ⟨Nat.zero_le _, ?_, Nat.le_refl _, hmark.pos, (hnext.reads hreads).pos⟩
      rw [hreads.pos]
      simp only [Nat.add_assoc]
      exact Nat.le_add_right pos _
  split at h
  · cases h
  split at h
  · cases h
  · cases h
    exact .point rfl hmark.pos

theorem scanPiece_at (h : scanPiece pos c cs = .error e)
    (hmark : Cursor.Marked mark ⟨pos, c :: cs⟩) : e.At mark := by
  unfold scanPiece at h
  split at h
  · cases h
  split at h
  · split at h
    · cases h
      exact .point rfl hmark.pos
    · cases h
  split at h
  · cases h
  · split at h
    · rename_i htoken
      cases h
      exact scanToken_at htoken hmark
    · cases h

/-- An error of the lexer points at marks. -/
theorem lexFrom_at {here : Cursor} (h : lexFrom here = .error e) (hmark : here.Marked mark) :
    e.At mark := by
  fun_induction lexFrom here with
  | case1 | case4 | case5 => cases h
  | case2 here c cs hrest e hpiece =>
    cases h
    refine scanPiece_at hpiece ?_
    rw [← hrest]
    exact hmark
  | case3 here c cs hrest piece next hpiece _ e' hmore ih =>
    cases h
    have hreads : ∃ taken, here.Reads taken next := by
      obtain _ | token := piece
      · obtain ⟨taken, hreads, -⟩ := gap_of_scanPiece hpiece
        rw [← hrest] at hreads
        exact ⟨taken, hreads⟩
      · obtain ⟨lexeme, hreads, -⟩ := lexeme_of_scanPiece hpiece
        rw [← hrest] at hreads
        exact ⟨lexeme, hreads⟩
    obtain ⟨taken, hreads⟩ := hreads
    exact ih hmore (hmark.reads hreads)

end Lexer

end Lamina
