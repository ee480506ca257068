import ShapeCheck.Heap.Reach

/-!
# Canonical numbering

Renumbering the nodes in a canonical order makes heaps of the same shape equal. The order is
breadth-first from null and then from the variables in name order. At each node the selectors are
followed in name order, then the summaries that start there, sorted by label and by the numbers
that their ends already have. Nodes that are never met keep their relative order at the end.
-/

namespace ShapeCheck

namespace Heap

/-- The key by which the summaries of one node are followed: the label, then the numbers of the
ends. Ends without a number count as larger than all others, and as equal among themselves. -/
def summaryKey (order : List Node) (e : Summary) : String × List Nat :=
  (e.label, e.ends.map order.idxOf)

/-- Number what a node leads to: the targets of its selectors, then those of its summaries. -/
def numberFrom (h : Heap) (order : List Node) (v : Node) : List Node :=
  let order := visitAll order (h.cell v).values
  let starting := sortBy (viaView (summaryKey order) (lexPair compare compare))
    (h.summaries.filter (·.source? = some v))
  visitAll order (starting.flatMap Summary.targets)

/-- The nodes in canonical order. -/
def canonicalOrder (h : Heap) : List Node :=
  visitAll (sweep h.numberFrom h.size 0 (visitAll [] h.roots)) h.nodes

/-- The heap with its nodes numbered in canonical order. -/
def normalize (h : Heap) : Heap :=
  h.relabel h.canonicalOrder

/-- Whether the nodes already have their canonical numbers. -/
def isNormalized (h : Heap) : Bool :=
  h.normalize = h

end Heap

end ShapeCheck
