import ShapeCheck.Collection.SortedMap
import ShapeCheck.Text.Decimal

/-!
# Heap graphs

A heap is a finite graph. Its nodes are numbered from zero, and node zero is *null*. A node may
have named *selectors*, each leading to one node; *variables* name nodes; and a *summary* is a
labelled hyperedge that stands for a whole region between the nodes it is attached to, its *ends*.
The first end of a summary is its *source*.

This file holds the type and the elementary reads and writes. Reads are total: a node outside the
heap has no selectors, and a write to it changes nothing.
-/

namespace ShapeCheck

/-- A node of a heap, by its number. A heap may have any number of nodes; up to `2 ^ 32` of them have
the numbers that `Node.ofIndex` gives. -/
abbrev Node := Nat

/-- The node with an index in 32 bits. A larger index wraps around. -/
def Node.ofIndex (i : Nat) : Node := i % Text.bound32

/-- The distinguished node without a cell of its own. -/
def Node.null : Node := 0

/-- The selectors of one node. -/
abbrev Cell := SortedMap String Node

/-- A labelled hyperedge that stands for a region of the heap. -/
structure Summary where
  /-- The kind of region. -/
  label : String
  /-- The nodes the region is attached to, the source first. -/
  ends : List Node
  deriving DecidableEq, Inhabited

namespace Summary

/-- The node a summary starts from. -/
def source? (e : Summary) : Option Node :=
  e.ends.head?

/-- The nodes a summary leads to. -/
def targets (e : Summary) : List Node :=
  e.ends.tail

end Summary

/-- A heap graph; the cell at index zero belongs to null. -/
structure Heap where
  /-- The selectors of each node. -/
  cells : List Cell
  /-- The nodes that program variables name. -/
  vars : SortedMap String Node
  /-- The summarised regions, in the order they were added. -/
  summaries : List Summary
  deriving DecidableEq

namespace Heap

/-- The heap whose only node is null. -/
def empty : Heap :=
  ⟨[∅], ∅, []⟩

instance : Inhabited Heap := ⟨empty⟩

/-- The number of nodes, null included. -/
def size (h : Heap) : Nat :=
  h.cells.length

/-- All nodes in increasing order. -/
def nodes (h : Heap) : List Node :=
  List.range h.size

/-- Whether a node belongs to the heap. -/
def contains (h : Heap) (v : Node) : Bool :=
  v < h.size

/-- The selectors of a node. -/
def cell (h : Heap) (v : Node) : Cell :=
  h.cells[v]?.getD ∅

/-- The node that a selector leads to. -/
def selector? (h : Heap) (v : Node) (sel : String) : Option Node :=
  (h.cell v).find? sel

/-- The node that a variable names. -/
def var? (h : Heap) (x : String) : Option Node :=
  h.vars.find? x

/-- The value of an operand: no operand, and a variable that names nothing, read as null. -/
def valueOf (h : Heap) (operand : Option String) : Node :=
  (operand.bind h.var?).getD Node.null

/-- The heap with one more node, which is numbered by the old size. -/
def grow (h : Heap) : Heap :=
  { h with cells := h.cells ++ [∅] }

/-- Change the selectors of one node. -/
def modifyCell (h : Heap) (v : Node) (f : Cell → Cell) : Heap :=
  { h with cells := h.cells.modify v f }

/-- Let a selector lead to `t`. Null has no selectors, so a write to it is ignored. -/
def setSelector (h : Heap) (v : Node) (sel : String) (t : Node) : Heap :=
  if v = Node.null then h else h.modifyCell v (·.insert sel t)

/-- Remove a selector. -/
def dropSelector (h : Heap) (v : Node) (sel : String) : Heap :=
  h.modifyCell v (·.erase sel)

/-- Remove all selectors of a node. -/
def clearCell (h : Heap) (v : Node) : Heap :=
  h.modifyCell v fun _ => ∅

/-- Let a variable name `v`. -/
def setVar (h : Heap) (x : String) (v : Node) : Heap :=
  { h with vars := h.vars.insert x v }

/-- Remove a variable. -/
def dropVar (h : Heap) (x : String) : Heap :=
  { h with vars := h.vars.erase x }

/-- Keep the variables whose name satisfies `p`. -/
def keepVars (h : Heap) (p : String → Bool) : Heap :=
  { h with vars := h.vars.filter fun x _ => p x }

/-- Append a summary. -/
def addSummary (h : Heap) (label : String) (ends : List Node) : Heap :=
  { h with summaries := h.summaries ++ [⟨label, ends⟩] }

/-- Remove the summaries at the given positions. -/
def dropSummaries (h : Heap) (positions : List Nat) : Heap :=
  { h with summaries := (h.summaries.zipIdx.filter (·.2 ∉ positions)).map Prod.fst }

/-- Keep the summaries that satisfy `p`. -/
def keepSummaries (h : Heap) (p : Summary → Bool) : Heap :=
  { h with summaries := h.summaries.filter p }

/-- The position of the first summary of a label that starts at a node. -/
def summaryFrom? (h : Heap) (v : Node) (label : String) : Option Nat :=
  h.summaries.findIdx? fun e => e.label = label && e.source? = some v

/-- Whether some summary starts at a node. -/
def startsSummary (h : Heap) (v : Node) : Bool :=
  h.summaries.any fun e => e.source? = some v

end Heap

end ShapeCheck
