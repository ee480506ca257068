import ShapeCheck.Logic.Formula

/-!
# Temporal formulae as written

Linear temporal logic with all its usual connectives. Formulae are put into negation normal form
before they are checked: negation is pushed to the atoms, an implication becomes a disjunction,
*eventually* an until and *always* a release.
-/

namespace ShapeCheck

/-- A temporal formula as written. -/
inductive Ltl where
  | top
  | bot
  | atom (name : String)
  | not (a : Ltl)
  | and (a b : Ltl)
  | or (a b : Ltl)
  | implies (a b : Ltl)
  | next (a : Ltl)
  | until (a b : Ltl)
  | release (a b : Ltl)
  | eventually (a : Ltl)
  | always (a : Ltl)
  deriving DecidableEq, Inhabited

namespace Ltl

/-- The negation normal form of a formula, or of its negation if `negated` is set. -/
def nnf : (negated : Bool) → Ltl → Formula
  | false, top | true, bot => .top
  | true, top | false, bot => .bot
  | false, atom p => .atom p
  | true, atom p => .natom p
  | neg, not a => nnf (!neg) a
  | false, and a b => .and (nnf false a) (nnf false b)
  | true, and a b => .or (nnf true a) (nnf true b)
  | false, or a b => .or (nnf false a) (nnf false b)
  | true, or a b => .and (nnf true a) (nnf true b)
  | false, implies a b => .or (nnf true a) (nnf false b)
  | true, implies a b => .and (nnf false a) (nnf true b)
  | neg, next a => .next (nnf neg a)
  | false, .until a b => .until (nnf false a) (nnf false b)
  | true, .until a b => .release (nnf true a) (nnf true b)
  | false, release a b => .release (nnf false a) (nnf false b)
  | true, release a b => .until (nnf true a) (nnf true b)
  | false, eventually a => .until .top (nnf false a)
  | true, eventually a => .release .bot (nnf true a)
  | false, always a => .release .bot (nnf false a)
  | true, always a => .until .top (nnf true a)

/-- The negation normal form of a formula. -/
def normalize (a : Ltl) : Formula :=
  a.nnf false

/-- The written form of a formula, with brackets around every binary connective. -/
def text : Ltl → String
  | top => "true"
  | bot => "false"
  | atom p => "[" ++ p ++ "]"
  | not a => "not " ++ a.text
  | and a b => "(" ++ a.text ++ " and " ++ b.text ++ ")"
  | or a b => "(" ++ a.text ++ " or " ++ b.text ++ ")"
  | implies a b => "(" ++ a.text ++ " implies " ++ b.text ++ ")"
  | next a => "next " ++ a.text
  | .until a b => "(" ++ a.text ++ " until " ++ b.text ++ ")"
  | release a b => "(" ++ a.text ++ " release " ++ b.text ++ ")"
  | eventually a => "eventually " ++ a.text
  | always a => "always " ++ a.text

end Ltl

end ShapeCheck
