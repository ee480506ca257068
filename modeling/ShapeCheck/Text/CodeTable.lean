/-!
# Tables of code points

A set of code points is given by an increasing list of bounds: the first bound starts a range, the
second one ends it, the third one starts the next range, and so on. The end of a range does not
belong to it. Long tables are written down by the distances of neighbouring bounds.
-/

namespace ShapeCheck.Text

/-- The bounds that lie such distances apart, the first one at its distance from `b`. -/
def boundsFrom : Nat → List Nat → List Nat
  | _, [] => []
  | b, d :: ds => (b + d) :: boundsFrom (b + d) ds

/-- Whether a code point lies in one of the ranges that the bounds describe. -/
def inTable : List Nat → Nat → Bool
  | [], _ => false
  | [lo], c => lo ≤ c
  | lo :: hi :: rest, c => lo ≤ c && (c < hi || inTable rest c)

end ShapeCheck.Text
