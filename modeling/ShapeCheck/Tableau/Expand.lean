import ShapeCheck.Collection.Lists
import ShapeCheck.Logic.Formula

/-!
# Expanding formulae at a state

A set of formulae stands for its disjunction. At a state where the atoms have known values, a
formula that is not a *next* is taken apart: a disjunction adds both its parts, a conjunction splits
the set, an until `a U b` becomes `(a ∨ b) ∧ (b ∨ X(a U b))` and a release `a R b` becomes
`b ∧ (a ∨ X(a R b))`. A set with a true member is settled; a set that runs empty cannot hold. What
is left are sets of next formulae, whose bodies are obligations for the successors.
-/

namespace ShapeCheck

namespace Formula

/-- How many rules can be applied to a formula before only next formulae are left. -/
def weight : Formula → Nat
  | next _ => 0
  | and a b | or a b | .until a b | release a b => 1 + a.weight + b.weight
  | top | bot | atom _ | natom _ => 1

/-- The body of a next formula. -/
def body? : Formula → Option Formula
  | next a => some a
  | _ => none

end Formula

/-- What expanding a set of formulae at a state leads to. -/
inductive Expansion where
  /-- No formula of the set can hold. -/
  | failed
  /-- Each of the sets has to hold at every successor; there are none if the set is settled. -/
  | obligations (sets : List FormulaSet)
  deriving DecidableEq, Inhabited

namespace FormulaSet

/-- The sum of the weights of the members. -/
def weight (s : FormulaSet) : Nat :=
  total (s.toList.map Formula.weight)

/-- The sets that all have to hold instead of `rest` together with the formula. -/
def split (holds : String → Bool) (rest : FormulaSet) : Formula → List FormulaSet
  | .top => []
  | .bot => [rest]
  | .atom p => if holds p then [] else [rest]
  | .natom p => if holds p then [rest] else []
  | .or a b => [(rest.insert a).insert b]
  | .and a b => [rest.insert a, rest.insert b]
  | .next a => [rest.insert (.next a)]
  | .until a b => [(rest.insert a).insert b, (rest.insert b).insert (.next (.until a b))]
  | .release a b => [rest.insert b, (rest.insert a).insert (.next (.release a b))]

/-- Take formulae apart, smallest first, until only next formulae are left. Every step lowers the
weight of the set, so its weight bounds the number of steps. -/
def leavesIn (holds : String → Bool) : (steps : Nat) → FormulaSet → List FormulaSet
  | 0, s => [s]
  | steps + 1, s =>
    match s.toList.find? (!·.isNext) with
    | none => [s]
    | some a => (split holds (s.erase a) a).flatMap (leavesIn holds steps)

/-- The sets of next formulae that a set is taken apart into. -/
def leaves (holds : String → Bool) (s : FormulaSet) : List FormulaSet :=
  leavesIn holds s.weight s

/-- The bodies of the next formulae of a set. -/
def bodies (s : FormulaSet) : FormulaSet :=
  SortedSet.ofList (s.toList.filterMap Formula.body?)

/-- Expand a set of formulae at a state where `holds` gives the values of the atoms. -/
def expand (holds : String → Bool) (s : FormulaSet) : Expansion :=
  let sets := leaves holds s
  if sets.any (·.isEmpty) then .failed
  else .obligations (SortedSet.ofList (sets.map bodies)).toList

end FormulaSet

end ShapeCheck
