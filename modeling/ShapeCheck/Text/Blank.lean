import ShapeCheck.Text.CodeTable

/-!
# White space

The Unicode property White_Space, which separates tokens and is trimmed from comments.
-/

namespace ShapeCheck.Text

/-- The bounds of the ranges of White_Space. -/
def blankBounds : List Nat := [
  9, 14, 32, 33, 133, 134, 160, 161, 5760, 5761, 8192, 8203, 8232, 8234, 8239, 8240, 8287, 8288,
  12288, 12289]

/-- Whether a character is white space. -/
def isBlank (c : Char) : Bool :=
  inTable blankBounds c.toNat

end ShapeCheck.Text
