import ShapeCheck.Heap.Normal

/-!
# Chains and abstractions

A *chain rule* names a selector and the label of the summaries that stand for two or more steps
along it: a summary `N(x, y)` is `x.sel = z, z.sel = y` or `x.sel = z, N(z, y)`. An abstraction is
a list of such rules and a depth: nodes at most that many steps away from a variable are kept
apart.

The distance of a node counts steps along selectors and summaries from the nearest variable.
-/

namespace ShapeCheck

/-- A selector and the label of the summaries of its chains. -/
structure Chain where
  /-- The selector the chain follows. -/
  selector : String
  /-- The label of a summarised chain. -/
  label : String
  deriving DecidableEq, Inhabited

/-- Singly linked lists. -/
def Chain.list : Chain :=
  ⟨"next", "SLL"⟩

/-- The chain rules in use, and the distance up to which nodes stay concrete. -/
structure Abstraction where
  /-- The rules, tried in this order. -/
  chains : List Chain := [Chain.list]
  /-- Nodes at most this far from a variable are not summarised. -/
  depth : Nat := 0
  deriving DecidableEq, Inhabited

namespace Heap

/-- Extend the nodes seen so far by as many layers of successors as asked for. -/
def layersFrom (h : Heap) : (depth : Nat) → (seen layer : List Node) → List Node
  | 0, seen, _ => seen
  | depth + 1, seen, layer =>
    let next := (visitAll seen (layer.flatMap h.successors)).drop seen.length
    if next.isEmpty then seen else h.layersFrom depth (seen ++ next) next

/-- The nodes at most `depth` steps away from a variable. -/
def near (h : Heap) (depth : Nat) : List Node :=
  let named := visitAll [] h.vars.values
  h.layersFrom depth named named

end Heap

/-- A breadth-first search for distances. -/
structure Wave where
  /-- The distance of each node that has been met. -/
  distances : List (Option Nat)
  /-- The nodes whose successors have not been met, the next one first. -/
  queue : List Node := []
  deriving DecidableEq, Inhabited

namespace Wave

/-- The distance of a node that has been met. -/
def distance? (w : Wave) (v : Node) : Option Nat :=
  w.distances[v]?.join

/-- Meet a node at a distance. A node that was met before keeps the distance it has. -/
def meet (d : Nat) (w : Wave) (v : Node) : Wave :=
  match w.distances[v]? with
  | some none => ⟨w.distances.set v (some d), w.queue ++ [v]⟩
  | _ => w

/-- Meet the successors of the next node. -/
def advance (h : Heap) (w : Wave) : Wave :=
  match w.queue with
  | [] => w
  | u :: queue => (h.successors u).foldl (meet ((w.distance? u).getD 0 + 1)) { w with queue }

/-- Meet the successors of as many nodes as asked for. -/
def run (h : Heap) : (steps : Nat) → Wave → Wave
  | 0, w => w
  | steps + 1, w => run h steps (w.advance h)

end Wave

namespace Heap

/-- The distances of all nodes: the number of steps from the nearest variable, if a variable reaches
the node. A node waits in the queue once at most, so as many steps as there are nodes are enough. -/
def distances (h : Heap) : List (Option Nat) :=
  (Wave.run h h.size (h.vars.values.foldl (Wave.meet 0) ⟨List.replicate h.size none, []⟩)).distances

/-- The number of steps from the nearest variable to a node, if a variable reaches it. -/
def distance? (h : Heap) (v : Node) : Option Nat :=
  h.distances[v]?.join

end Heap

end ShapeCheck
