/-!
# Strongly connected components

Graphs on the numbers below a bound, given by lists of successors. The components are listed in the
order in which a depth-first search leaves them: a component comes after every component that can be
reached from it. The search starts from the vertices in increasing order and follows successors in
the order of their lists.
-/

namespace ShapeCheck

/-- A graph on the numbers below the length of the array. -/
abbrev Graph := Array (List Nat)

namespace Graph

/-- The successors of a vertex. -/
def next (g : Graph) (v : Nat) : List Nat :=
  g[v]?.getD []

/-- The graph with every edge turned around. -/
def reverse (g : Graph) : Graph :=
  g.toList.zipIdx.foldl
    (fun r (targets, v) => targets.foldl (fun r w => r.modify w (v :: ·)) r)
    (Array.replicate g.size [])

/-- Mark the unmarked vertices of a list, and put them on the stack. -/
def markAll (targets : List Nat) (stack : List Nat) (seen : Array Bool) : List Nat × Array Bool :=
  targets.foldl
    (fun (stack, seen) w =>
      if seen[w]? = some false then (w :: stack, seen.set! w true) else (stack, seen))
    (stack, seen)

/-- Mark everything that can be reached from the vertices on the stack. A vertex is put on the stack
at most once, so as many steps as there are vertices are enough. -/
def floodFrom (g : Graph) : (steps : Nat) → List Nat → Array Bool → Array Bool
  | 0, _, seen => seen
  | _ + 1, [], seen => seen
  | steps + 1, v :: stack, seen =>
    let (stack, seen) := markAll (g.next v) stack seen
    g.floodFrom steps stack seen

/-- For every vertex, whether it can be reached from `v` in zero or more steps. -/
def flood (g : Graph) (v : Nat) : Array Bool :=
  let (stack, seen) := markAll [v] [] (Array.replicate g.size false)
  g.floodFrom g.size stack seen

/-- Depth-first search from a vertex. Vertices are put in front of the list when the search leaves
them; the depth of the search is bounded by the number of vertices. -/
def searchFrom (g : Graph) : (depth : Nat) → Array Bool × List Nat → Nat → Array Bool × List Nat
  | 0, found, _ => found
  | depth + 1, (seen, left), v =>
    if seen[v]? = some false then
      let (seen, left) := (g.next v).foldl (g.searchFrom depth) (seen.set! v true, left)
      (seen, v :: left)
    else (seen, left)

/-- All vertices in the order a depth-first search leaves them, the last one first. -/
def finishOrder (g : Graph) : List Nat :=
  ((List.range g.size).foldl (g.searchFrom g.size) (Array.replicate g.size false, [])).2

/-- The vertices that can be reached from `v` and from which `v` can be reached. -/
def component (g reversed : Graph) (v : Nat) : List Nat :=
  let ahead := g.flood v
  let behind := reversed.flood v
  (List.range g.size).filter fun w => ahead[w]? = some true && behind[w]? = some true

/-- Collect the components of the listed vertices, each new one in front. -/
def collectComponents (g reversed : Graph) : List Nat → List (List Nat) → List (List Nat)
  | [], found => found
  | v :: rest, found =>
    if found.any (v ∈ ·) then g.collectComponents reversed rest found
    else g.collectComponents reversed rest (g.component reversed v :: found)

/-- The strongly connected components, in the order a depth-first search leaves them. -/
def components (g : Graph) : List (List Nat) :=
  g.collectComponents g.reverse g.finishOrder []

end Graph

end ShapeCheck
