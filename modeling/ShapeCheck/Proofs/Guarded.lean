import ShapeCheck.Proofs.Containment

/-!
# Lookups in tables of nodes

Sweeps, renumberings, folds and the scope of calls work with tables that have one entry for each node
of a heap: the nodes seen, their new numbers, the references to them. The nodes that are looked up come
from selectors, variables, summaries and frames, and the table may have been made for another heap. Here
every operation has a second form that gives no result if a node is looked up in a table that is too
short for it, if a selector or a variable is set to a node that is not there, or if a summary is removed
at a position that does not exist. In heaps whose references are in range all lookups succeed, and the
results are the same.
-/

namespace ShapeCheck

open List

namespace Heap.InRange

variable {h : Heap} {v : Node}

theorem lt_of_mem_targets (hh : h.InRange) {l : List Node}
    (hv : v ∈ l.flatMap fun u => (h.cell u).values) : v < h.size := by
  obtain ⟨u, -, hv⟩ := mem_flatMap.1 hv
  exact hh.lt_of_mem_values hv

theorem lt_of_mem_ends (hh : h.InRange) {l : List Summary} (hl : l ⊆ h.summaries)
    (hv : v ∈ l.flatMap Summary.ends) : v < h.size := by
  obtain ⟨e, he, hv⟩ := mem_flatMap.1 hv
  exact hh.ends e (hl he) v hv

end Heap.InRange

namespace Guarded

open Call

variable {A : Abstraction} {h post : Heap} {order vs args : List Node} {v : Node} {n depth : Nat}

/-- Go on only if a condition holds. -/
def require (p : Prop) [Decidable p] : Option Unit :=
  if p then some () else none

theorem require_eq {p : Prop} [Decidable p] (hp : p) : require p = some () :=
  if_pos hp

/-- Look up nodes in a table of `n` entries. -/
def touch (n : Nat) (vs : List Node) : Option Unit :=
  require (∀ v ∈ vs, v < n)

theorem touch_eq (hvs : ∀ v ∈ vs, v < n) : touch n vs = some () :=
  require_eq hvs

/-- Append the nodes that are not yet listed. A table of `n` entries holds which ones are. -/
def visitAll (n : Nat) (order vs : List Node) : Option (List Node) := do
  touch n vs
  return ShapeCheck.visitAll order vs

theorem visitAll_eq (hvs : ∀ v ∈ vs, v < n) :
    visitAll n order vs = some (ShapeCheck.visitAll order vs) := by
  rw [visitAll, touch_eq hvs]
  rfl

/-- Breadth-first completion by steps that may fail. -/
def sweep (step : List Node → Node → Option (List Node)) :
    (steps cursor : Nat) → List Node → Option (List Node)
  | 0, _, order => some order
  | steps + 1, cursor, order =>
    match order[cursor]? with
    | none => some order
    | some v => do sweep step steps (cursor + 1) (← step order v)

theorem sweep_eq {step? : List Node → Node → Option (List Node)} {step : List Node → Node → List Node}
    (hstep : ∀ order v, step? order v = some (step order v)) (steps cursor : Nat) :
    sweep step? steps cursor order = some (ShapeCheck.sweep step steps cursor order) := by
  induction steps generalizing cursor order with
  | zero => rfl
  | succ steps ih =>
    rw [sweep, ShapeCheck.sweep]
    cases order[cursor]? with
    | none => rfl
    | some v =>
      dsimp only
      rw [hstep]
      exact ih (cursor + 1)

/-- The nodes reachable from the roots. Only roots of the heap are looked up. -/
def reach (h : Heap) (roots : List Node) : Option (List Node) :=
  sweep (fun order v => visitAll h.size order (h.successors v)) h.size 0
    (ShapeCheck.visitAll [] (roots.filter h.contains))

theorem reach_eq (hh : h.InRange) (roots : List Node) : reach h roots = some (h.reach roots) :=
  sweep_eq (fun _ _ => visitAll_eq fun _ => hh.lt_of_mem_successors) _ _

/-- Renumber along a list. Null has to come first, and each node of the list gets an entry in the table
of new numbers. -/
def relabel (h : Heap) (order : List Node) : Option Heap := do
  require (order.head? = some Node.null)
  touch h.size order
  return h.relabel order

theorem relabel_eq (hnull : order.head? = some Node.null) (horder : ∀ v ∈ order, v < h.size) :
    relabel h order = some (h.relabel order) := by
  rw [relabel, require_eq hnull, touch_eq horder]
  rfl

theorem relabel_filter_eq (hh : h.InRange) {p : Node → Bool} (hp : p Node.null) :
    relabel h (h.nodes.filter p) = some (h.relabel (h.nodes.filter p)) :=
  relabel_eq (Heap.head?_filter_nodes hh hp) fun _ hv => Heap.mem_nodes.1 (mem_of_mem_filter hv)

/-- Garbage collection. -/
def collect (h : Heap) : Option Heap := do
  let live ← reach h h.roots
  if h.nodes.all (· ∈ live) then return h else relabel h (h.nodes.filter (· ∈ live))

theorem collect_eq (hh : h.InRange) : collect h = some h.collect := by
  rw [collect, reach_eq hh, Heap.collect]
  dsimp only [Option.bind_eq_bind, Option.bind_some]
  split
  · rfl
  · exact relabel_filter_eq hh (by simpa using hh.mem_reach_roots_iff.2 .null)

/-- Drop the flagged nodes. There may be fewer flags than nodes, or more. -/
def dropNodes (h : Heap) (dead : List Bool) : Option Heap :=
  if dead.any id then
    relabel h (h.nodes.filter fun v => v = Node.null || !(dead[v]?.getD false))
  else some h

theorem dropNodes_eq (hh : h.InRange) (dead : List Bool) :
    dropNodes h dead = some (h.dropNodes dead) := by
  rw [dropNodes, Heap.dropNodes]
  split
  · exact relabel_filter_eq hh (by simp)
  · rfl

/-- Number what a node leads to. All ends of its summaries are looked up to put the summaries in
order. -/
def numberFrom (h : Heap) (order : List Node) (v : Node) : Option (List Node) := do
  let order ← visitAll h.size order (h.cell v).values
  let starting := h.summaries.filter (·.source? = some v)
  touch h.size (starting.flatMap Summary.ends)
  visitAll h.size order
    ((sortBy (viaView (Heap.summaryKey order) (lexPair compare compare)) starting).flatMap
      Summary.targets)

theorem numberFrom_eq (hh : h.InRange) (order : List Node) (v : Node) :
    numberFrom h order v = some (h.numberFrom order v) := by
  rw [numberFrom, visitAll_eq fun u => hh.lt_of_mem_values]
  dsimp only [Option.bind_eq_bind, Option.bind_some]
  rw [touch_eq fun u => hh.lt_of_mem_ends (filter_subset_self _)]
  refine visitAll_eq fun u hu => ?_
  obtain ⟨e, he, hu⟩ := mem_flatMap.1 hu
  exact hh.ends e (mem_of_mem_filter ((sortBy_perm _ _).mem_iff.1 he)) u
    (mem_of_mem_tail hu)

/-- The nodes in canonical order. -/
def canonicalOrder (h : Heap) : Option (List Node) := do
  let order ← visitAll h.size [] h.roots
  visitAll h.size (← sweep (numberFrom h) h.size 0 order) h.nodes

theorem canonicalOrder_eq (hh : h.InRange) : canonicalOrder h = some h.canonicalOrder := by
  have hroots : ∀ v ∈ h.roots, v < h.size := fun v hv => hh.lt_of_isLive ⟨v, hv, .refl⟩
  rw [canonicalOrder, visitAll_eq hroots]
  dsimp only [Option.bind_eq_bind, Option.bind_some]
  rw [sweep_eq (numberFrom_eq hh)]
  exact visitAll_eq fun _ => Heap.mem_nodes.1

/-- Canonical numbering. -/
def normalize (h : Heap) : Option Heap := do
  relabel h (← canonicalOrder h)

theorem normalize_eq (hh : h.InRange) : normalize h = some h.normalize := by
  rw [normalize, canonicalOrder_eq hh]
  exact relabel_eq hh.head?_canonicalOrder fun _ => hh.mem_canonicalOrder_iff.1

/-- Search for a node to fold. The tables of distances and of references belong to the heap, the table
of folded nodes has `n` entries. -/
def findFold (A : Abstraction) (h : Heap) (depth n : Nat) (folded : List Node) :
    Option (Option Fold) := do
  touch h.size h.vars.values
  touch h.size (h.nodes.flatMap h.successors)
  touch h.size (h.summaries.flatMap Summary.ends)
  touch n h.nodes
  return A.findFold? h depth folded

/-- Fold a node. The summaries are removed by their positions, and the node is marked in the table of
folded nodes. -/
def foldNode (f : Fold) (n : Nat) (h : Heap) : Option Heap := do
  let positions := [f.incoming, f.outgoing].filterMap Link.position?
  require (positions.Nodup ∧ ∀ i ∈ positions, i < h.summaries.length)
  touch n [f.node]
  return f.apply h

/-- Fold as long as a node can be folded. -/
def foldAll (A : Abstraction) (depth n : Nat) :
    (steps : Nat) → Heap → List Node → Option (Heap × List Node)
  | 0, h, folded => do
    let _ ← findFold A h depth n folded
    return (h, folded)
  | steps + 1, h, folded => do
    match ← findFold A h depth n folded with
    | none => return (h, folded)
    | some f => foldAll A depth n steps (← foldNode f n h) (f.node :: folded)

/-- The canonical shape. -/
def shapeAt (A : Abstraction) (depth : Nat) (h : Heap) : Option Heap := do
  let (folded, gone) ← foldAll A depth h.size h.size h []
  normalize (← dropNodes folded (h.nodes.map (· ∈ gone)))

section Fold

variable {f : Fold} {folded : List Node}

theorem findFold_eq (hh : h.InRange) (hn : h.size ≤ n) :
    findFold A h depth n folded = some (A.findFold? h depth folded) := by
  rw [findFold, touch_eq fun v => hh.lt_of_mem_vars, touch_eq fun v hv => ?steps,
    touch_eq fun v => hh.lt_of_mem_ends (List.Subset.refl _),
    touch_eq fun v hv => Nat.lt_of_lt_of_le (Heap.mem_nodes.1 hv) hn]
  · rfl
  case steps =>
    obtain ⟨u, -, hv⟩ := mem_flatMap.1 hv
    exact hh.lt_of_mem_successors hv

theorem lt_of_mem_positions {chain : Chain} (hf : h.foldAt? chain v = some f) {i : Nat}
    (hi : i ∈ [f.incoming, f.outgoing].filterMap Link.position?) : i < h.summaries.length := by
  obtain ⟨-, -, hin, hout, -, -⟩ := Heap.foldAt?_eq_some hf
  obtain ⟨-, hincoming⟩ := Heap.linkInto?_spec hin
  obtain ⟨-, houtgoing⟩ := Heap.linkOutOf?_spec hout
  simp only [mem_filterMap, mem_cons, not_mem_nil, or_false] at hi
  obtain ⟨link, rfl | rfl, hi⟩ := hi
  · rcases hincoming with ⟨heq, -⟩ | ⟨j, heq, hj, -⟩ <;> rw [heq] at hi <;> cases hi
    exact (List.getElem?_eq_some_iff.1 hj).1
  · rcases houtgoing with ⟨heq, -⟩ | ⟨j, heq, hj, -⟩ <;> rw [heq] at hi <;> cases hi
    exact (List.getElem?_eq_some_iff.1 hj).1

theorem foldNode_eq (hf : A.findFold? h depth folded = some f) (hn : h.size ≤ n) :
    foldNode f n h = some (f.apply h) := by
  obtain ⟨chain, -, hfold, hlt, -⟩ := Abstraction.findFold?_eq_some hf
  have hpositions : ([f.incoming, f.outgoing].filterMap Link.position?).Nodup ∧
      ∀ i ∈ [f.incoming, f.outgoing].filterMap Link.position?, i < h.summaries.length :=
    ⟨Heap.nodup_positions_of_foldAt? hfold, fun _ => lt_of_mem_positions hfold⟩
  have hnode : touch n [f.node] = some () := touch_eq (by simpa using Nat.lt_of_lt_of_le hlt hn)
  rw [foldNode, require_eq hpositions, hnode]
  rfl

/-- Folding keeps the number of nodes, so the table of folded nodes fits throughout. -/
theorem foldAll_eq (hred : Abstraction.IsReducing n h folded) (A : Abstraction) (depth steps : Nat) :
    foldAll A depth n steps h folded = some (A.foldAll depth steps h folded) := by
  have hn : ∀ {g folded}, Abstraction.IsReducing n g folded → g.size ≤ n := fun hred =>
    Nat.le_of_eq hred.size
  induction steps generalizing h folded with
  | zero =>
    rw [foldAll, findFold_eq hred.inRange (hn hred)]
    rfl
  | succ steps ih =>
    rw [foldAll, findFold_eq hred.inRange (hn hred), Abstraction.foldAll]
    dsimp only [Option.bind_eq_bind, Option.bind_some]
    cases hf : A.findFold? h depth folded with
    | none => rfl
    | some f =>
      dsimp only
      rw [foldNode_eq hf (hn hred)]
      exact ih (hred.step_of_findFold? hf)

end Fold

theorem shapeAt_eq (hh : h.InRange) (A : Abstraction) (depth : Nat) :
    shapeAt A depth h = some (A.shapeAt depth h) := by
  have hred := (Abstraction.IsReducing.start hh).foldAll A depth h.size
  rw [shapeAt, foldAll_eq (.start hh)]
  dsimp only [Option.bind_eq_bind, Option.bind_some]
  rw [dropNodes_eq hred.inRange]
  exact normalize_eq (hred.inRange.inRange_dropNodes _)

/-- The heaps in which a selector is concrete. The summary is removed by its position, and the fresh
node has to be there before a selector can lead to it. -/
def unfoldAt (A : Abstraction) (h : Heap) (v : Node) (sel : String) :
    Option (Except UnfoldError (List Heap)) :=
  if (h.selector? v sel).isSome then some (.ok [h])
  else if v = Node.null then some (.error (.impossible v sel))
  else
    match A.hiding? h v sel with
    | none => some (.error (.impossible v sel))
    | some (chain, i, target) => do
      require (i < h.summaries.length)
      touch (h.size + 1) [h.size, target]
      let rest := Abstraction.splitOff h v sel i
      let last ← normalize (rest.setSelector h.size sel target)
      let more ← normalize (rest.addSummary chain.label [h.size, target])
      return .ok [last, more]

theorem unfoldAt_eq (hh : h.InRange) (A : Abstraction) (v : Node) (sel : String) :
    unfoldAt A h v sel = some (A.unfoldAt h v sel) := by
  rw [unfoldAt, Abstraction.unfoldAt]
  split
  · rfl
  split
  · rfl
  cases hhiding : A.hiding? h v sel with
  | none => rfl
  | some found =>
    obtain ⟨chain, i, target⟩ := found
    obtain ⟨-, -, hi⟩ := Abstraction.hiding?_eq_some hhiding
    have htarget : target < h.size := hh.ends _ (mem_of_getElem? hi) target (by simp)
    have htouch : touch (h.size + 1) [h.size, target] = some () :=
      touch_eq (by simpa using Nat.lt_succ_of_lt htarget)
    dsimp only
    rw [require_eq (List.getElem?_eq_some_iff.1 hi).1, htouch,
      normalize_eq (hh.splitOff_setSelector htarget),
      normalize_eq (hh.splitOff_addSummary htarget chain.label)]
    rfl

/-- Enter a call. The numbers in the callee are looked up for what is copied, the references from
elsewhere are marked, and the interface is put in the order of the callee's nodes. -/
def enter (h : Heap) (params : List String) (args : List Node) : Option (Heap × Frame) := do
  let seen ← reach h args
  let inside := h.nodes.filter fun v => v ≠ Node.null && v ∈ seen
  touch h.size (Node.null :: h.summaries.filterMap Summary.source?)
  let targets := inside.flatMap fun v => (h.cell v).values
  let values := (params.zip args).map Prod.snd
  touch h.size targets
  touch h.size ((h.summaries.filter (startsIn inside)).flatMap Summary.ends)
  touch h.size values
  let start := callee h inside params args
  touch start.size ((targets ++ values).map (calleeNode inside))
  touch h.size (referenced h inside)
  touch start.size (← canonicalOrder start)
  let interface := interfaceNodes h inside start
  touch start.size (interface.map (calleeNode inside))
  let outer := (inside.foldl Heap.clearCell h).keepSummaries (!startsIn inside ·)
  return (bindInterface start (interface.map (calleeNode inside)), ⟨outer, interface⟩)

theorem lt_of_mem_referenced (hh : h.InRange) {inside : List Node} (hv : v ∈ referenced h inside) :
    v < h.size := by
  simp only [referenced, mem_append] at hv
  rcases hv with (hv | hv) | hv
  · exact hh.lt_of_mem_vars hv
  · exact hh.lt_of_mem_targets hv
  · exact hh.lt_of_mem_ends (filter_subset_self _) hv

theorem enter_eq (hh : h.InRange) (params : List String) (hargs : ∀ v ∈ args, v < h.size) :
    enter h params args = some (Call.enter h params args) := by
  have hstart (inside : List Node) : (callee h inside params args).InRange := inRange_callee
  have hcallee (inside l : List Node) :
      ∀ v ∈ l.map (calleeNode inside), v < (callee h inside params args).size := by
    intro v hv
    obtain ⟨u, -, rfl⟩ := mem_map.1 hv
    rw [size_callee]
    exact calleeNode_lt
  rw [enter, reach_eq hh]
  dsimp only [Option.bind_eq_bind, Option.bind_some]
  rw [touch_eq fun v hv => ?sources, touch_eq fun v => hh.lt_of_mem_targets,
    touch_eq fun v => hh.lt_of_mem_ends (filter_subset_self _), touch_eq fun v hv => ?values,
    touch_eq (hcallee _ _),
    touch_eq fun v => lt_of_mem_referenced hh, canonicalOrder_eq (hstart _)]
  dsimp only [Option.bind_eq_bind, Option.bind_some]
  rw [touch_eq fun v => (hstart _).mem_canonicalOrder_iff.1, touch_eq (hcallee _ _)]
  · rfl
  case sources =>
    rcases mem_cons.1 hv with rfl | hv
    · exact hh.pos
    · obtain ⟨e, he, hv⟩ := mem_filterMap.1 hv
      exact hh.ends e he v (mem_of_mem_head? hv)
  case values =>
    obtain ⟨binding, hbinding, rfl⟩ := mem_map.1 hv
    exact hargs _ (of_mem_zip hbinding).2

/-- Leave a call. The caller's numbers are looked up for what is copied, and the selectors and the
result are set in the heap that has grown by the fresh nodes. -/
def resume (frame : Frame) (post : Heap) (result? : Option String) : Option Heap := do
  touch post.size (Node.null :: (frame.named post).map Prod.fst)
  let targets := post.nodes.flatMap fun v => (post.cell v).values
  touch post.size targets
  touch post.size (post.summaries.flatMap Summary.ends)
  let size := frame.outer.size + frame.freshCount post
  touch size (targets.map (frame.callerNode post))
  if result?.isSome then
    touch post.size (post.var? returnVar).toList
    touch size [((post.var? returnVar).map (frame.callerNode post)).getD Node.null]
  collect (frame.assigned post result?)

theorem resume_eq {frame : Frame} (hframe : frame.InRange) (hpost : post.InRange)
    (result? : Option String) : resume frame post result? = some (frame.resume post result?) := by
  have hsize : (frame.glued post).size = frame.outer.size + frame.freshCount post := Frame.size_glued
  rw [resume, ← hsize]
  dsimp only
  rw [touch_eq fun v hv => ?named, touch_eq fun v => hpost.lt_of_mem_targets,
    touch_eq fun v => hpost.lt_of_mem_ends (List.Subset.refl _), touch_eq fun v hv => ?copied,
    touch_eq fun v hv => ?returned,
    touch_eq (by simpa using hframe.result_lt hpost)]
  · cases result? <;> exact collect_eq (hframe.assigned hpost _)
  case named =>
    rcases mem_cons.1 hv with rfl | hv
    · exact hpost.pos
    · obtain ⟨pair, hpair, rfl⟩ := mem_map.1 hv
      obtain ⟨x, -, hx, -⟩ := Frame.mem_named_iff.1 hpair
      exact hpost.var x _ hx
  case copied =>
    obtain ⟨u, hu, rfl⟩ := mem_map.1 hv
    exact hframe.callerNode_lt (hpost.lt_of_mem_targets hu)
  case returned => exact hpost.var _ v (Option.mem_toList.1 hv)

end Guarded

end ShapeCheck
