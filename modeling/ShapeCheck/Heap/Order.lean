import ShapeCheck.Heap.Basic

/-!
# The order of heaps

Heaps are compared by their cells, then by their variables, then by their summaries, each list
lexicographically; a summary is compared by its label and then by its ends. The order is total and
only equal heaps compare equal, so sets and tables of heaps have one listing.
-/

namespace ShapeCheck

open Std

/-- Summaries are compared by label, then by their ends. -/
instance : Ord Summary where
  compare := viaView (fun e => (e.label, e.ends)) (lexPair compare compare)

instance : TransOrd Summary :=
  transCmp_viaView _ _

instance : LawfulEqOrd Summary :=
  lawfulEqCmp_viaView _ fun a b h => by cases a; cases b; simp_all

/-- Heaps are compared by cells, then variables, then summaries. -/
instance : Ord Heap where
  compare := viaView (fun h => (h.cells, h.vars, h.summaries))
    (lexPair compare (lexPair compare compare))

instance : TransOrd Heap :=
  transCmp_viaView _ _

instance : LawfulEqOrd Heap :=
  lawfulEqCmp_viaView _ fun a b h => by cases a; cases b; simp_all

end ShapeCheck
