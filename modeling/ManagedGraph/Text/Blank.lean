/-!
# Blank characters

The blanks that versions and flags are trimmed of are the characters of
Unicode's `White_Space` property.
-/

namespace ManagedGraph.Text

/-- Whether `c` has Unicode's `White_Space` property. -/
def isBlank (c : Char) : Bool :=
  let n := c.toNat
  (0x09 ≤ n && n ≤ 0x0D) || n == 0x20 || n == 0x85 || n == 0xA0 || n == 0x1680 ||
    (0x2000 ≤ n && n ≤ 0x200A) || n == 0x2028 || n == 0x2029 || n == 0x202F ||
    n == 0x205F || n == 0x3000

/-- `s` without its longest ending all of whose characters satisfy `p`. -/
def dropEndWhile (p : Char → Bool) (s : List Char) : List Char :=
  (s.reverse.dropWhile p).reverse

/-- `s` without the blanks at its two ends. -/
def trim (s : List Char) : List Char :=
  dropEndWhile isBlank (s.dropWhile isBlank)

/-- A text that does not end in such a character keeps its end. -/
theorem dropEndWhile_append_singleton {p : Char → Bool} {c : Char} (s : List Char)
    (h : p c = false) : dropEndWhile p (s ++ [c]) = s ++ [c] := by
  simp [dropEndWhile, h]

end ManagedGraph.Text
