import ShapeCheck.Call.Names
import ShapeCheck.Heap.Normal

/-!
# The scope of a call

A call works on the part of the heap that its arguments reach, the *fragment*. The nodes of the
fragment that the caller refers to from elsewhere form the *interface*; the callee sees each of them
under a reserved variable, so that they survive the call. What stays behind is a *frame*, into which
a result of the callee is put back.
-/

namespace ShapeCheck.Call

/-- The caller's part of a heap during a call. -/
structure Frame where
  /-- The heap with the fragment emptied of selectors and summaries. -/
  outer : Heap
  /-- The interface nodes in the order of their reserved variables. -/
  interface : List Node
  deriving DecidableEq, Inhabited

/-- The nodes other than null that the arguments reach, in increasing order. -/
def fragment (h : Heap) (args : List Node) : List Node :=
  let seen := h.reach args
  h.nodes.filter fun v => v ≠ Node.null && v ∈ seen

/-- Whether a summary starts inside a set of nodes. -/
def startsIn (inside : List Node) (e : Summary) : Bool :=
  e.source?.any (· ∈ inside)

/-- The number of a node in the callee: null stays null, the fragment is numbered in order. -/
def calleeNode (inside : List Node) (v : Node) : Node :=
  match inside.idxOf? v with
  | some i => i + 1
  | none => Node.null

/-- The nodes that the caller refers to without passing through the fragment: by a variable, by a
selector of another node, or by a summary that starts elsewhere. -/
def referenced (h : Heap) (inside : List Node) : List Node :=
  h.vars.values ++ (h.nodes.filter (· ∉ inside)).flatMap (fun v => (h.cell v).values) ++
    (h.summaries.filter (!startsIn inside ·)).flatMap Summary.ends

/-- The fragment as a heap of its own, with the parameters bound to the arguments. -/
def callee (h : Heap) (inside : List Node) (params : List String) (args : List Node) : Heap where
  cells := ∅ :: inside.map fun v => (h.cell v).filterMap fun t => some (calleeNode inside t)
  vars := SortedMap.ofList (params.zip (args.map (calleeNode inside)))
  summaries := (h.summaries.filter (startsIn inside)).map fun e =>
    { e with ends := e.ends.map (calleeNode inside) }

/-- The interface of a call: the referenced nodes of the fragment, in the canonical order of the
callee's heap. -/
def interfaceNodes (h : Heap) (inside : List Node) (callee : Heap) : List Node :=
  let order := callee.canonicalOrder
  let outside := referenced h inside
  sortBy (viaView (fun v => order.idxOf (calleeNode inside v)) compare)
    (inside.filter (· ∈ outside))

/-- Bind the interface variables. -/
def bindInterface (callee : Heap) (nodes : List Node) : Heap :=
  nodes.zipIdx.foldl (fun h (v, i) => h.setVar (interfaceVar i) v) callee

/-- The heap that a callee starts with, and the frame that is left. -/
def enter (h : Heap) (params : List String) (args : List Node) : Heap × Frame :=
  let inside := fragment h args
  let start := callee h inside params args
  let interface := interfaceNodes h inside start
  let outer := (inside.foldl Heap.clearCell h).keepSummaries (!startsIn inside ·)
  (bindInterface start (interface.map (calleeNode inside)), ⟨outer, interface⟩)

namespace Frame

/-- The interface nodes that a result of the callee names: its nodes paired with the caller's, in
name order of the variables. -/
def named (frame : Frame) (post : Heap) : List (Node × Node) :=
  post.vars.toList.filterMap fun (name, v) => do
    let i ← interfaceIndex? name
    let u ← frame.interface[i]?
    return (v, u)

/-- The caller's node for a node of the result: an interface node if a variable names it (the last
one wins), null for null, and a fresh node otherwise. -/
def callerNode (frame : Frame) (post : Heap) (v : Node) : Node :=
  let named := frame.named post
  match named.reverse.lookup v with
  | some u => u
  | none =>
    if v = Node.null then Node.null
    else frame.outer.size +
      (post.nodes.filter fun u => u ≠ Node.null && (named.lookup u).isNone).idxOf v

/-- The number of fresh nodes that a result brings. -/
def freshCount (frame : Frame) (post : Heap) : Nat :=
  let named := frame.named post
  (post.nodes.filter fun u => u ≠ Node.null && (named.lookup u).isNone).length

/-- Copy the selectors of the result into the caller's heap. -/
def copyCells (frame : Frame) (post : Heap) (h : Heap) : Heap :=
  let rename := frame.callerNode post
  post.nodes.foldl
    (fun h v => (post.cell v).toList.foldl
      (fun h (sel, t) => h.setSelector (rename v) sel (rename t)) h) h

/-- The caller's heap after a call: the result takes the place of the fragment, `result?` is bound to
the returned value, and garbage is collected. -/
def resume (frame : Frame) (post : Heap) (result? : Option String) : Heap :=
  let rename := frame.callerNode post
  let grown := (List.range (frame.freshCount post)).foldl (fun h _ => h.grow) frame.outer
  let h := frame.copyCells post grown
  let h := post.summaries.foldl (fun h e => h.addSummary e.label (e.ends.map rename)) h
  let h := match result? with
    | none => h
    | some x => h.setVar x (((post.var? returnVar).map rename).getD Node.null)
  h.collect

end Frame

end ShapeCheck.Call
