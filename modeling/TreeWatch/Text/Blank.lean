/-!
# Blank characters

The characters with the `White_Space` property, and what it means to strip them. Control lines and
category masks are read after stripping.
-/

namespace TreeWatch

/-- The property `White_Space` of the Unicode standard. -/
def isBlank (c : Char) : Bool :=
  let n := c.toNat
  (0x9 ≤ n && n ≤ 0xD) || n == 0x20 || n == 0x85 || n == 0xA0 || n == 0x1680 ||
    (0x2000 ≤ n && n ≤ 0x200A) || n == 0x2028 || n == 0x2029 || n == 0x202F || n == 0x205F ||
    n == 0x3000

/-- Without the elements that satisfy `p` at the end. -/
def dropWhileEnd {α : Type} (p : α → Bool) (xs : List α) : List α :=
  (xs.reverse.dropWhile p).reverse

/-- Without blanks at either end. -/
def strip (text : List Char) : List Char := dropWhileEnd isBlank (text.dropWhile isBlank)

end TreeWatch
