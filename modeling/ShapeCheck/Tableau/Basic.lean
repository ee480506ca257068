import ShapeCheck.Space.Basic
import ShapeCheck.Tableau.Expand

/-!
# Tableaux over a state space

A *sequent* asserts that every path from a state satisfies one of the formulae of a set. A tableau
holds sequents, each with the one it was first derived from, and the derivation steps between them.
Expanding a sequent derives sequents for the successors of its state; a sequent that cannot hold is
a failure.
-/

namespace ShapeCheck

/-- The truth of an atom at a state. -/
abbrev Labelling := State → String → Bool

/-- The statement that every path from a state satisfies some formula of a set. -/
structure Sequent where
  state : StateId
  /-- The formulae, one of which has to hold. -/
  formulae : FormulaSet
  deriving DecidableEq, Inhabited

/-- A sequent in a tableau. -/
structure TableauNode where
  sequent : Sequent
  /-- The node it was first derived from; none for a root. -/
  parent : Option Nat
  /-- Whether it has been expanded. -/
  expanded : Bool := false
  deriving DecidableEq, Inhabited

/-- Sequents and the derivations between them. -/
structure Tableau where
  /-- The sequents in the order they were added, without repetition. -/
  nodes : Array TableauNode := #[]
  /-- The derivation steps in the order they were made. -/
  edges : Array (Nat × Nat) := #[]
  /-- The first node that could not hold. -/
  failure : Option Nat := none
  deriving DecidableEq, Inhabited

namespace Tableau

/-- The number of sequents. -/
def size (T : Tableau) : Nat :=
  T.nodes.size

/-- Whether some sequent could not hold. -/
def hasFailed (T : Tableau) : Bool :=
  T.failure.isSome

/-- The sequent of a node. -/
def sequent (T : Tableau) (id : Nat) : Sequent :=
  (T.nodes[id]?.map (·.sequent)).getD ⟨0, ∅⟩

/-- Add a sequent unless it is present, and record the step from its parent in any case. Returns the
node and whether it is new. -/
def assert (T : Tableau) (q : Sequent) (parent : Option Nat) : Tableau × Nat × Bool :=
  let (T, id, fresh) :=
    match T.nodes.findIdx? (·.sequent = q) with
    | some id => (T, id, false)
    | none => ({ T with nodes := T.nodes.push ⟨q, parent, false⟩ }, T.size, true)
  match parent with
  | some p => ({ T with edges := T.edges.push (p, id) }, id, fresh)
  | none => (T, id, fresh)

/-- Expand a node whose state makes the atoms true as `holds` says. -/
def expand (T : Tableau) (id : Nat) (holds : String → Bool) : Tableau × Expansion :=
  let result := (T.sequent id).formulae.expand holds
  let T := { T with nodes := T.nodes.modify id fun n => { n with expanded := true } }
  if result = .failed && T.failure.isNone then ({ T with failure := some id }, result)
  else (T, result)

/-- Add the sequents that a node leads to: every obligation at every successor. Returns the new
nodes in the order they were added. -/
def derive (T : Tableau) (id : Nat) (sets : List FormulaSet) (successors : List StateId) :
    Tableau × List Nat :=
  (sets.flatMap fun s => successors.map fun t => Sequent.mk t s).foldl
    (fun (T, added) q =>
      let (T, child, fresh) := T.assert q (some id)
      (T, if fresh then added ++ [child] else added))
    (T, [])

end Tableau

end ShapeCheck
