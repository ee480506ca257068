import ShapeCheck.Shape.Basic

/-!
# Folding chains into summaries

A node in the middle of a chain, which no variable names and which nothing else refers to, is
folded: the step into it and the step out of it become one summary, and the node disappears. Both
steps are a selector of the chain or a summary of its label. Folding until no node is left to fold,
and numbering canonically, gives the canonical shape of a heap.
-/

namespace ShapeCheck

/-- A step of a chain: the selector of a node, or the summary at a position. -/
inductive Link where
  | selector (owner : Node)
  | summary (position : Nat)
  deriving DecidableEq, Inhabited

/-- A node to fold, with the steps around it. -/
structure Fold where
  /-- The rule that applies. -/
  chain : Chain
  /-- The node that disappears. -/
  node : Node
  /-- Where the step into the node starts. -/
  source : Node
  /-- Where the step out of the node ends. -/
  target : Node
  /-- The step into the node. -/
  incoming : Link
  /-- The step out of the node. -/
  outgoing : Link
  deriving DecidableEq, Inhabited

/-- The two ends of a summary of a chain. -/
def Summary.asLink? (e : Summary) (chain : Chain) : Option (Node × Node) :=
  match e.ends with
  | [source, target] => if e.label = chain.label then some (source, target) else none
  | _ => none

namespace Heap

/-- All selectors that lead to a node, with the node they belong to. -/
def selectorsInto (h : Heap) (v : Node) : List (Node × String) :=
  h.cells.zipIdx.flatMap fun (cell, u) =>
    (cell.toList.filter (·.2 = v)).map fun (sel, _) => (u, sel)

/-- The positions of the summaries that a node is a target of, once per occurrence. -/
def summariesInto (h : Heap) (v : Node) : List Nat :=
  h.summaries.zipIdx.flatMap fun (e, i) => List.replicate (e.targets.count v) i

/-- The positions of the summaries that start at a node. -/
def summariesOutOf (h : Heap) (v : Node) : List Nat :=
  (h.summaries.zipIdx.filter (·.1.source? = some v)).map Prod.snd

/-- The step into a node, if it is the only reference to it and belongs to the chain, with the node
where the step starts. -/
def linkInto? (h : Heap) (chain : Chain) (v : Node) : Option (Link × Node) :=
  match h.selectorsInto v, h.summariesInto v with
  | [(u, sel)], [] => if sel = chain.selector then some (.selector u, u) else none
  | [], [i] => (h.summaries[i]?.bind (·.asLink? chain)).map fun (u, _) => (.summary i, u)
  | _, _ => none

/-- The step out of a node, if it is the only one and belongs to the chain, with the node where the
step ends. -/
def linkOutOf? (h : Heap) (chain : Chain) (v : Node) : Option (Link × Node) :=
  match (h.cell v).toList, h.summariesOutOf v with
  | [(sel, w)], [] => if sel = chain.selector then some (.selector v, w) else none
  | [], [i] => (h.summaries[i]?.bind (·.asLink? chain)).map fun (_, w) => (.summary i, w)
  | _, _ => none

/-- The fold of a node along a chain, if the chain passes through the node and neither starts nor
ends in it. -/
def foldAt? (h : Heap) (chain : Chain) (v : Node) : Option Fold := do
  let (incoming, source) ← h.linkInto? chain v
  let (outgoing, target) ← h.linkOutOf? chain v
  if source = v || target = v then none
  else some { chain, node := v, source, target, incoming, outgoing }

/-- Remove the selector of a step. -/
def dropLinkSelector (h : Heap) (chain : Chain) : Link → Heap
  | .selector u => h.dropSelector u chain.selector
  | .summary _ => h

end Heap

/-- The position of a summary step. -/
def Link.position? : Link → Option Nat
  | .selector _ => none
  | .summary i => some i

/-- Replace the two steps around a node by one summary. The node itself stays behind without any
connection. -/
def Fold.apply (f : Fold) (h : Heap) : Heap :=
  let h := (h.dropLinkSelector f.chain f.outgoing).dropLinkSelector f.chain f.incoming
  let h := h.dropSummaries ([f.incoming, f.outgoing].filterMap Link.position?)
  h.addSummary f.chain.label [f.source, f.target]

namespace Abstraction

/-- The first node that can be folded: rules in order, then nodes in order. Null, nodes folded
before, nodes that a variable names and nodes within the protected distance stay. -/
def findFold? (A : Abstraction) (h : Heap) (depth : Nat) (folded : List Node) : Option Fold :=
  let kept := h.near depth
  A.chains.findSome? fun chain =>
    h.nodes.tail.findSome? fun v =>
      if v ∈ folded || v ∈ kept then none else h.foldAt? chain v

/-- Fold as long as a node can be folded. Every step folds a new node, so there are at most as many
steps as nodes. Returns the heap and the nodes left without connection. -/
def foldAll (A : Abstraction) (depth : Nat) : (steps : Nat) → Heap → List Node → Heap × List Node
  | 0, h, folded => (h, folded)
  | steps + 1, h, folded =>
    match A.findFold? h depth folded with
    | none => (h, folded)
    | some f => A.foldAll depth steps (f.apply h) (f.node :: folded)

/-- The canonical shape when nodes up to the given distance are protected. -/
def shapeAt (A : Abstraction) (depth : Nat) (h : Heap) : Heap :=
  let (folded, gone) := A.foldAll depth h.size h []
  (folded.dropNodes (h.nodes.map (· ∈ gone))).normalize

/-- The canonical shape of a heap. -/
def canonical (A : Abstraction) (h : Heap) : Heap :=
  A.shapeAt A.depth h

/-- The most general shape of a heap, with chains folded right up to the variables. -/
def coarsest (A : Abstraction) (h : Heap) : Heap :=
  A.shapeAt 0 h

/-- The heaps that a heap is recognised by: the heap itself, its normal form, and its canonical
shapes. -/
def views (A : Abstraction) (h : Heap) : List Heap :=
  [h, h.normalize, A.canonical h, A.coarsest h]

/-- Whether `shape` is recognised as describing `actual`. -/
def subsumes (A : Abstraction) (shape actual : Heap) : Bool :=
  shape ∈ A.views actual

end Abstraction

end ShapeCheck
