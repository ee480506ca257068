import ShapeCheck.Graph.Components
import ShapeCheck.Tableau.Basic

/-!
# The verdict of a tableau

A tableau refutes its roots in two ways: a sequent cannot hold, or a cycle of derivations goes on
forever without a release formula that all its sequents share. Both give a path that violates the
formula: a finite one that ends where nothing can hold any more, or one that ends in a cycle.
-/

namespace ShapeCheck

/-- A violating path: states that are passed once, then states that repeat forever. -/
structure Counterexample where
  /-- The states that are passed once. -/
  stem : List StateId
  /-- The states that repeat; none if the stem ends in a failing state. -/
  cycle : List StateId
  deriving DecidableEq, Inhabited

namespace Counterexample

/-- All states of a violating path in order. -/
def states (c : Counterexample) : List StateId :=
  c.stem ++ c.cycle

/-- Where the repeated part starts. -/
def cycleStart? (c : Counterexample) : Option Nat :=
  if c.cycle.isEmpty then none else some c.stem.length

/-- The states of a violating path, as found in a space. -/
def trace {fp : State → Nat} (c : Counterexample) (sp : StateSpace fp) : List State :=
  c.states.filterMap sp.state?

end Counterexample

/-- The outcome of checking a formula. -/
inductive Verdict where
  | satisfied
  | violated (path : Counterexample)
  deriving DecidableEq, Inhabited

/-- Whether the formula holds. -/
def Verdict.isSatisfied : Verdict → Bool
  | .satisfied => true
  | .violated _ => false

namespace Tableau

/-- The state of a node. -/
def stateOf (T : Tableau) (id : Nat) : StateId :=
  (T.sequent id).state

/-- The states of a node and of its ancestors, put in front of a path. -/
def climb (T : Tableau) : (steps : Nat) → Option Nat → List StateId → List StateId
  | _, none, path => path
  | 0, some _, path => path
  | steps + 1, some id, path =>
    T.climb steps (T.nodes[id]?.bind (·.parent)) (T.stateOf id :: path)

/-- The states from a root to a node, along the first derivation of each node. -/
def pathTo (T : Tableau) (id : Nat) : List StateId :=
  T.climb T.size (some id) []

/-- The derivation steps as a graph; the successors of a node are listed from the newest step to the
oldest, a repeated step at the place of its first occurrence. -/
def graph (T : Tableau) : Graph :=
  T.edges.foldl
    (fun g (u, v) => g.modify u fun targets => if v ∈ targets then targets else v :: targets)
    (Array.replicate T.size [])

/-- Whether some release formula occurs in every node of a component. -/
def isJustified (T : Tableau) : List Nat → Bool
  | [] => true
  | id :: rest => (T.sequent id).formulae.toList.any fun a =>
      a.isRelease && rest.all fun other => a ∈ (T.sequent other).formulae

/-- Whether a component contains a cycle. -/
def hasCycle (g : Graph) : List Nat → Bool
  | [id] => id ∈ g.next id
  | members => 1 < members.length

/-- The steps from a node to nodes of a component, oldest first. -/
def stepsWithin (T : Tableau) (members : List Nat) (id : Nat) : List Nat :=
  (T.edges.toList.filter fun (u, v) => u = id && v ∈ members).map Prod.snd

/-- Search a component breadth-first for the shortest way back to `entry`. The nodes found so far
are listed with the node each was found from. Returns the last node of the way. -/
def wayBack (T : Tableau) (members : List Nat) (entry : Nat) :
    (steps : Nat) → (queue : List Nat) → (found : List (Nat × Nat)) → Option Nat × List (Nat × Nat)
  | 0, _, found => (none, found)
  | _ + 1, [], found => (none, found)
  | steps + 1, id :: queue, found =>
    let targets := T.stepsWithin members id
    if entry ∈ targets then (some id, found)
    else
      let new := (targets.filter fun t => (found.lookup t).isNone).eraseDups
      T.wayBack members entry steps (queue ++ new) (found ++ new.map (·, id))

/-- The states from `entry` to a node, along the search that found it. -/
def retrace (T : Tableau) (entry : Nat) (found : List (Nat × Nat)) :
    (steps : Nat) → Option Nat → List StateId → List StateId
  | 0, _, path => path
  | _ + 1, none, path => path
  | steps + 1, some id, path =>
    if id = entry then path
    else T.retrace entry found steps (found.lookup id) (T.stateOf id :: path)

/-- A path into a component, and a shortest cycle through its oldest node. -/
def lasso (T : Tableau) (members : List Nat) : Counterexample :=
  let entry := members.min?.getD 0
  let (last, found) := T.wayBack members entry members.length [entry] []
  { stem := (T.pathTo entry).dropLast
    cycle := T.stateOf entry :: T.retrace entry found (found.length + 1) last [] }

/-- The verdict of the derivations made so far. A failed sequent is reported first; otherwise the
first component that contains a cycle and is not justified. The components may be found in any way. -/
def verdict (T : Tableau) (components : Graph → List (List Nat) := Graph.components) : Verdict :=
  match T.failure with
  | some id => .violated ⟨T.pathTo id, []⟩
  | none =>
    let g := T.graph
    match (components g).find? fun members => hasCycle g members && !T.isJustified members with
    | some members => .violated (T.lasso members)
    | none => .satisfied

end Tableau

end ShapeCheck
