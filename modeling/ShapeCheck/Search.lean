import ShapeCheck.Tableau.Check

/-!
# Search strategies

A search says which state is expanded next. It keeps a stack of states. A depth-first search pushes
every new state. A search that checks a formula on the fly pushes only states at which some sequent of
its tableau is still open; sequents that reach a waiting state join the ones already open there. It
stops as soon as a sequent fails.
-/

namespace ShapeCheck

/-- The tableau of an on-the-fly search, with the sequents that are open at each state. -/
structure Checker where
  /-- The formula that is checked. -/
  formula : Formula
  /-- The values of atoms. -/
  labels : Labelling
  /-- The sequents asserted so far. -/
  tableau : Tableau := {}
  /-- The open sequents at the states that wait to be expanded. -/
  waiting : SortedMap StateId (List Nat) := ∅

/-- A stack of states to expand, the next one first. -/
structure Search where
  /-- The states that wait. -/
  stack : List StateId := []
  /-- The checker of an on-the-fly search; a depth-first search has none. -/
  checker? : Option Checker := none

namespace Search

variable {fp : State → Nat}

/-- A search that expands every state. -/
def depthFirst : Search :=
  {}

/-- A search that checks a formula while states are found. -/
def onTheFly (a : Formula) (labels : Labelling) : Search :=
  { checker? := some { formula := a, labels } }

/-- The number of waiting states. -/
def pending (S : Search) : Nat :=
  S.stack.length

/-- Put a state on the stack. -/
def push (S : Search) (id : StateId) : Search :=
  { S with stack := id :: S.stack }

/-- Take the state that was put on the stack last. -/
def pop? (S : Search) : Option (StateId × Search) :=
  match S.stack with
  | [] => none
  | id :: stack => some (id, { S with stack })

/-- Remove the occurrence of a state that was put on the stack first. -/
def remove (S : Search) (id : StateId) : Search :=
  { S with stack := (S.stack.reverse.erase id).reverse }

/-- Open a sequent at a state, and let the state wait if it does not yet. -/
def await (S : Search) (c : Checker) (id : StateId) (sequent : Nat) : Search × Checker :=
  let waiting := c.waiting.insert id ((c.waiting.find? id).getD [] ++ [sequent])
  (if id ∈ S.stack then S else S.push id, { c with waiting })

/-- An initial state has been found. -/
def start (S : Search) (id : StateId) : Search :=
  match S.checker? with
  | none => S.push id
  | some c =>
    let (tableau, sequent, fresh) := c.tableau.assert ⟨id, SortedSet.ofList [c.formula]⟩ none
    let c := { c with tableau }
    let (S, c) := if fresh then S.await c id sequent else (S, c)
    { S with checker? := some c }

/-- Expand the open sequents of a state one after the other. Returns whether one of them failed. -/
def discharge (sp : StateSpace fp) (id : StateId) (successors : List StateId) :
    List Nat → Search → Checker → Search × Checker × Bool
  | [], S, c => (S, c, false)
  | sequent :: sequents, S, c =>
    match c.tableau.expand sequent (Tableau.valuation sp c.labels id) with
    | (tableau, .failed) => (S, { c with tableau }, true)
    | (tableau, .obligations sets) =>
      let (tableau, added) := tableau.derive sequent sets successors
      let (S, c) := added.foldl
        (fun (S, c) child => await S c (tableau.stateOf child) child) (S, { c with tableau })
      discharge sp id successors sequents S c

/-- A state has been expanded, and `fresh` are the states that were new. A depth-first search lets
the new states wait; an on-the-fly search expands the sequents that are open at the state. The verdict
is given if it is known. -/
def expanded (S : Search) (sp : StateSpace fp) (id : StateId) (fresh : List StateId) :
    Search × Option Verdict :=
  match S.checker? with
  | none => (fresh.foldl push S, none)
  | some c =>
    match c.waiting.find? id with
    | none => (S, none)
    | some sequents =>
      let c := { c with waiting := c.waiting.erase id }
      match discharge sp id (sp.checkSuccessors id) sequents S c with
      | (S, c, false) => ({ S with checker? := some c }, none)
      | (_, c, true) =>
        ({ stack := [], checker? := some { c with waiting := ∅ } }, some c.tableau.verdict)

/-- The verdict when no state is left. -/
def finish (S : Search) : Option Verdict :=
  S.checker?.map (·.tableau.verdict)

/-- The open sequents at a state; none for a depth-first search. -/
def openAt (S : Search) (id : StateId) : Option (List FormulaSet) :=
  S.checker?.map fun c =>
    ((c.waiting.find? id).getD []).map fun i => (c.tableau.sequent i).formulae

/-- Expand waiting states of a finished space until the verdict is known or no state is left.
Returns the search and the states in the order they were expanded. -/
def driveFrom (sp : StateSpace fp) : (steps : Nat) → Search → Search × Option Verdict × List StateId
  | 0, S => (S, none, [])
  | steps + 1, S =>
    match S.pop? with
    | none => (S, none, [])
    | some (id, S) =>
      match S.expanded sp id [] with
      | (S, some v) => (S, some v, [id])
      | (S, none) =>
        let (S, v, ids) := driveFrom sp steps S
        (S, v, id :: ids)

/-- Check a formula on the fly over a finished space. Returns the verdict, the states in the order
they were expanded, and the tableau. -/
def drive (sp : StateSpace fp) (labels : Labelling) (a : Formula) :
    Verdict × List StateId × Tableau :=
  let S := sp.initial.foldl start (onTheFly a labels)
  let (S, v?, ids) := driveFrom sp (Tableau.sequentBound sp a) S
  let T := (S.checker?.map (·.tableau)).getD {}
  (v?.getD T.verdict, ids, T)

end Search

end ShapeCheck
