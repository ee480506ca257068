import ShapeCheck.Heap.Order
import ShapeCheck.Collection.Sort

/-!
# Reachability and renumbering

A node leads to the targets of its selectors and to the targets of the summaries that start at it.
Breadth-first sweeps list what can be reached; renumbering along such a list drops the nodes that
are not on it. Garbage collection keeps what null and the variables reach.
-/

namespace ShapeCheck

/-- Append a node unless it is already listed. -/
def visit (order : List Node) (v : Node) : List Node :=
  if v ∈ order then order else order ++ [v]

/-- Append the nodes that are not yet listed. -/
def visitAll (order vs : List Node) : List Node :=
  vs.foldl visit order

/-- Breadth-first completion. The list is result and queue in one: the node at `cursor` is handled
by `step`, which appends what it discovers, until the cursor meets the end. Every step passes one
node, so as many steps as there are nodes are enough. -/
def sweep (step : List Node → Node → List Node) : (steps cursor : Nat) → List Node → List Node
  | 0, _, order => order
  | steps + 1, cursor, order =>
    match order[cursor]? with
    | none => order
    | some v => sweep step steps (cursor + 1) (step order v)

/-- A summary with its ends renumbered; none if it touches a node without a new number. -/
def Summary.relabel (order : List Node) (e : Summary) : Option Summary :=
  (e.ends.mapM order.idxOf?).map (⟨e.label, ·⟩)

namespace Heap

/-- The nodes a node leads to: the targets of its selectors in name order, then those of the
summaries that start at it. -/
def successors (h : Heap) (v : Node) : List Node :=
  (h.cell v).values ++ (h.summaries.filter (·.source? = some v)).flatMap Summary.targets

/-- The nodes reachable from the roots in zero or more steps, in breadth-first order. -/
def reach (h : Heap) (roots : List Node) : List Node :=
  sweep (fun order v => visitAll order (h.successors v)) h.size 0
    (visitAll [] (roots.filter h.contains))

/-- For every node, whether it can be reached from the roots. -/
def reachable (h : Heap) (roots : List Node) : List Bool :=
  let seen := h.reach roots
  h.nodes.map (· ∈ seen)

/-- The heap in which the `i`th node of `order` is node `i`. Nodes that are not listed are dropped,
together with every selector, variable and summary that touches them, and the summaries are put in
order. -/
def relabel (h : Heap) (order : List Node) : Heap where
  cells := order.map fun v => (h.cell v).filterMap order.idxOf?
  vars := h.vars.filterMap order.idxOf?
  summaries := sortBy compare (h.summaries.filterMap (Summary.relabel order))

/-- The roots of garbage collection: null and the nodes that variables name. -/
def roots (h : Heap) : List Node :=
  Node.null :: h.vars.values

/-- Drop every node that neither null nor a variable reaches. A heap without such nodes is left as
it is. -/
def collect (h : Heap) : Heap :=
  let live := h.reach h.roots
  if h.nodes.all (· ∈ live) then h else h.relabel (h.nodes.filter (· ∈ live))

/-- Drop the nodes flagged in `dead`, null excepted. Without a flag the heap is left as it is. -/
def dropNodes (h : Heap) (dead : List Bool) : Heap :=
  if dead.any id then
    h.relabel (h.nodes.filter fun v => v = Node.null || !(dead[v]?.getD false))
  else h

end Heap

end ShapeCheck
