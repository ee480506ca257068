import ShapeCheck.Heap.Basic

/-!
# Heaps as text

A heap is written in braces as its variables, its selectors and its summaries, as in
`{x=n1, n1.next->n2, SLL(n2, null)}`.
-/

namespace ShapeCheck

/-- Null by its name, every other node by its number. -/
def Node.text (v : Node) : String :=
  if v = Node.null then "null" else "n" ++ v.repr

/-- A summary written like a call of its label on its ends. -/
def Summary.text (e : Summary) : String :=
  e.label ++ "(" ++ ", ".intercalate (e.ends.map Node.text) ++ ")"

namespace Heap

/-- The selectors of one node, one entry each. -/
def cellText (h : Heap) (v : Node) : List String :=
  (h.cell v).toList.map fun (sel, t) => v.text ++ "." ++ sel ++ "->" ++ t.text

/-- The entries of a heap: variables in name order, selectors by node and name, summaries. -/
def entries (h : Heap) : List String :=
  h.vars.toList.map (fun (x, v) => x ++ "=" ++ v.text) ++ h.nodes.flatMap h.cellText ++
    h.summaries.map Summary.text

/-- The entries of a heap in braces. -/
def text (h : Heap) : String :=
  "\x7b" ++ ", ".intercalate h.entries ++ "\x7d"

end Heap

end ShapeCheck
