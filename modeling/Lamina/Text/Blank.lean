/-!
# Blanks

The blanks are the code points with the Unicode property White_Space. They separate tokens
and are otherwise ignored, except that a newline ends a line.
-/

namespace Lamina.Text

/-- Blanks: the ASCII ones, next line, no-break space, and the spaces and separators of the
other blocks. -/
def isBlank (c : Char) : Bool :=
  let n := c.toNat
  (9 ≤ n && n ≤ 13) || n == 0x20 || n == 0x85 || n == 0xa0 || n == 0x1680 ||
    (0x2000 ≤ n && n ≤ 0x200a) || n == 0x2028 || n == 0x2029 || n == 0x202f ||
    n == 0x205f || n == 0x3000

end Lamina.Text
