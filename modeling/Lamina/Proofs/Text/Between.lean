import Lamina.Proofs.Text.Position
import Lamina.Token.Error

/-!
# Spans between marks

A span of a text starts and stops at marks, which are the character boundaries of the text. Of spans
that stand one behind the other the merged span goes from the first to the last.
-/

namespace Lamina

/-- The character boundaries of a text. -/
def boundary (source : String) (byte : Nat) : Prop := String.Pos.Raw.IsValid source ⟨byte⟩

/-- A span between two offsets, which starts and stops at marks. -/
structure Span.Between (mark : Nat → Prop) (low high : Nat) (span : Span) : Prop where
  low : low ≤ span.start
  ordered : span.start ≤ span.stop
  high : span.stop ≤ high
  start : mark span.start
  stop : mark span.stop

namespace Span.Between

variable {mark : Nat → Prop} {low high low' high' middle : Nat} {span first last : Span}

theorem within (h : span.Between mark low high) (hlow : low' ≤ span.start)
    (hhigh : span.stop ≤ high') : span.Between mark low' high' :=
  ⟨hlow, h.ordered, hhigh, h.start, h.stop⟩

theorem widen (h : span.Between mark low high) (hlow : low' ≤ low) (hhigh : high ≤ high') :
    span.Between mark low' high' :=
  h.within (Nat.le_trans hlow h.low) (Nat.le_trans h.high hhigh)

theorem start_le (h : span.Between mark low high) : span.start ≤ high :=
  Nat.le_trans h.ordered h.high

theorem le_stop (h : span.Between mark low high) : low ≤ span.stop := Nat.le_trans h.low h.ordered

theorem le (h : span.Between mark low high) : low ≤ high := Nat.le_trans h.le_stop h.high

/-- Of two spans one behind the other, the merged span goes from the first to the last. -/
theorem merge_eq (hfirst : first.Between mark low middle) (hlast : last.Between mark middle high) :
    first.merge last = ⟨first.start, last.stop⟩ := by
  have hstart := Nat.le_trans hfirst.start_le hlast.low
  have hstop := Nat.le_trans hfirst.high hlast.le_stop
  rw [Span.merge, Nat.min_eq_left hstart, Nat.max_eq_right hstop]

theorem merge (hfirst : first.Between mark low middle) (hlast : last.Between mark middle high) :
    (first.merge last).Between mark low high := by
  rw [hfirst.merge_eq hlast]
  exact ⟨hfirst.low, Nat.le_trans hfirst.start_le hlast.le_stop, hlast.high, hfirst.start, hlast.stop⟩

end Span.Between

/-- The place of an error, if it has one, is between two marks. -/
def SyntaxError.At (mark : Nat → Prop) (e : SyntaxError) : Prop :=
  ∀ span ∈ e.span?, span.Between mark 0 span.stop

theorem SyntaxError.At.point {mark} {e : SyntaxError} {pos} (he : e.span? = some (.point pos))
    (h : mark pos) : e.At mark := by
  rw [SyntaxError.At, he]
  rintro span ⟨⟩
  exact ⟨Nat.zero_le pos, Nat.le_refl pos, Nat.le_refl pos, h, h⟩

end Lamina
