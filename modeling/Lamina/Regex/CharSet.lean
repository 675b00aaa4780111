/-!
# Sets of characters

A set of characters is a list of ranges of codes, ascending and with gaps between them. A set may be
known to contain every character together with its variants of case.

What a set can hold is its alphabet: all characters, or all bytes. The complement is taken in it.
Codes of surrogates belong to no character; a complement leaves them out.
-/

namespace Lamina.Regex

/-- What the members of a set are. -/
inductive Alphabet
  | chars | bytes
deriving DecidableEq, Inhabited, Repr

/-- The codes that a complement never holds, as a range, and the first code behind all. -/
def Alphabet.limits : Alphabet → (Nat × Nat) × Nat
  | chars => ((0xd800, 0xdfff), 0x110000)
  | bytes => ((0x100, 0x100), 0x100)

/-- A set of characters. -/
structure CharSet where
  ranges : List (Nat × Nat)
  /-- Is the set known to be closed under change of case? -/
  closed : Bool
deriving DecidableEq, Inhabited, Repr

namespace CharSet

/-- Adds a range to ascending ranges; those that it meets are joined with it. -/
def insert (range : Nat × Nat) : List (Nat × Nat) → List (Nat × Nat)
  | [] => [range]
  | first :: rest =>
    if range.2 + 1 < first.1 then range :: first :: rest
    else if first.2 + 1 < range.1 then first :: insert range rest
    else insert (min range.1 first.1, max range.2 first.2) rest

/-- The ranges between ascending ranges, from `low` up to, not including, `top`. -/
def gaps (low top : Nat) : List (Nat × Nat) → List (Nat × Nat)
  | [] => if low < top then [(low, top - 1)] else []
  | (first, last) :: rest =>
    if low < min first top then (low, min first top - 1) :: gaps (last + 1) top rest
    else gaps (last + 1) top rest

/-- The empty set. -/
def empty : CharSet := ⟨[], true⟩

/-- The set of some ranges. -/
def ofRanges (ranges : List (Nat × Nat)) : CharSet :=
  ⟨ranges.foldr insert [], ranges.isEmpty⟩

/-- Adds a range. -/
def push (s : CharSet) (range : Nat × Nat) : CharSet := ⟨insert range s.ranges, false⟩

/-- All members of either set. -/
def union (a b : CharSet) : CharSet :=
  if b.ranges.isEmpty ∨ a.ranges = b.ranges then a
  else ⟨b.ranges.foldr insert a.ranges, a.closed && b.closed⟩

/-- All other members of the alphabet. -/
def complement (alphabet : Alphabet) (s : CharSet) : CharSet :=
  let (never, top) := alphabet.limits
  if s.ranges.isEmpty then ⟨gaps 0 top [never], true⟩
  else ⟨gaps 0 top (insert never s.ranges), s.closed⟩

/-- The members of both sets. -/
def intersection (alphabet : Alphabet) (a b : CharSet) : CharSet :=
  if a.ranges.isEmpty then a
  else if b.ranges.isEmpty then b
  else
    let outside := (a.complement alphabet).union (b.complement alphabet)
    ⟨(outside.complement alphabet).ranges, a.closed && b.closed⟩

/-- The members of the first set alone. -/
def difference (alphabet : Alphabet) (a b : CharSet) : CharSet :=
  if a.ranges.isEmpty ∨ b.ranges.isEmpty then a
  else
    let outside := (a.complement alphabet).union b
    ⟨(outside.complement alphabet).ranges, a.closed && b.closed⟩

/-- The members of exactly one of the sets. -/
def symmetricDifference (alphabet : Alphabet) (a b : CharSet) : CharSet :=
  (a.union b).difference alphabet (a.intersection alphabet b)

/-- Adds the other case of every ASCII letter. -/
def foldAscii (s : CharSet) : CharSet :=
  let part (lo hi : Nat) (move : Nat → Nat) : List (Nat × Nat) :=
    s.ranges.filterMap fun range =>
      if max lo range.1 ≤ min hi range.2 then
        some (move (max lo range.1), move (min hi range.2))
      else none
  let variants := part 0x61 0x7a (· - 32) ++ part 0x41 0x5a (· + 32)
  ⟨variants.foldr insert s.ranges, true⟩

/-- Are all members ASCII? -/
def isAscii (s : CharSet) : Bool := s.ranges.all (·.2 < 128)

/-- Is a character a member? -/
def contains (s : CharSet) (c : Char) : Bool :=
  s.ranges.any fun range => range.1 ≤ c.toNat && c.toNat ≤ range.2

end CharSet

end Lamina.Regex
