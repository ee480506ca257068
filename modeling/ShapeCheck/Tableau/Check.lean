import ShapeCheck.Tableau.Verdict

/-!
# Checking a formula on a finished state space

The roots assert the formula at the initial states. Sequents are expanded in the order they were
added, until all are expanded or one fails. There are finitely many sequents: their formulae are
subformulae of the formula that is checked.
-/

namespace ShapeCheck

/-- The number of occurrences of connectives and atoms. -/
def Formula.size : Formula → Nat
  | .top | .bot | .atom _ | .natom _ => 1
  | .next a => a.size + 1
  | .and a b | .or a b | .until a b | .release a b => a.size + b.size + 1

namespace Tableau

variable {fp : State → Nat}

/-- The values of the atoms at a state of a space. -/
def valuation (sp : StateSpace fp) (labels : Labelling) (id : StateId) : String → Bool :=
  match sp.state? id with
  | some s => labels s
  | none => fun _ => false

/-- Expand the sequents from `cursor` on, and those that are added on the way, until one fails. -/
def saturate (sp : StateSpace fp) (labels : Labelling) :
    (steps cursor : Nat) → Tableau → Tableau
  | 0, _, T => T
  | steps + 1, cursor, T =>
    if cursor < T.size then
      let state := T.stateOf cursor
      match T.expand cursor (valuation sp labels state) with
      | (T, .failed) => T
      | (T, .obligations sets) =>
        saturate sp labels steps (cursor + 1) (T.derive cursor sets (sp.checkSuccessors state)).1
    else T

/-- The sequents that assert a formula at some states. -/
def ofRoots (a : Formula) (roots : List StateId) : Tableau :=
  roots.foldl (fun T id => (T.assert ⟨id, SortedSet.ofList [a]⟩ none).1) {}

/-- More sequents than can be derived from a formula on a space: the state of a sequent is initial or
the target of a step. -/
def sequentBound (sp : StateSpace fp) (a : Formula) : Nat :=
  (sp.initial.length + sp.edgeCount) * Nat.pow 2 a.size + 1

end Tableau

/-- Check a formula on all paths from the initial states of a space. -/
def StateSpace.check {fp : State → Nat} (sp : StateSpace fp) (labels : Labelling) (a : Formula) :
    Verdict :=
  (Tableau.saturate sp labels (Tableau.sequentBound sp a) 0
    (Tableau.ofRoots a sp.initial)).verdict

end ShapeCheck
