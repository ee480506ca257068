import ShapeCheck.Heap.Text
import ShapeCheck.Shape.Basic

/-!
# Unfolding summaries

Before a selector can be read, a summary that hides it is unfolded one step. Both rules of the
chain are possible, so one heap becomes two: one in which the chain ends after two steps, and one in
which a shorter summary is left.
-/

namespace ShapeCheck

/-- A selector that no rule can make concrete. -/
inductive UnfoldError where
  | impossible (node : Node) (selector : String)
  deriving DecidableEq, Inhabited

/-- The wording of an unfolding error. -/
def UnfoldError.message : UnfoldError → String
  | .impossible v sel =>
    "cannot materialize " ++ v.text ++ "." ++ sel ++ ": no grammar rule produces it"

/-- A variable and the selector that is accessed through it. -/
structure AccessPoint where
  /-- The variable that is dereferenced. -/
  base : String
  /-- The selector that is read or written. -/
  selector : String
  deriving DecidableEq, Inhabited

namespace Abstraction

/-- The chains along a selector. -/
def chainsAlong (A : Abstraction) (sel : String) : List Chain :=
  A.chains.filter (·.selector = sel)

/-- Whether a summary that starts at the node hides the selector. -/
def hides (A : Abstraction) (h : Heap) (v : Node) (sel : String) : Bool :=
  v ≠ Node.null && (h.selector? v sel).isNone &&
    (A.chainsAlong sel).any fun chain => (h.summaryFrom? v chain.label).isSome

/-- The position and the target of the first summary at a node that a chain along the selector
produces. -/
def hiding? (A : Abstraction) (h : Heap) (v : Node) (sel : String) : Option (Chain × Nat × Node) :=
  (A.chainsAlong sel).findSome? fun chain => do
    let i ← h.summaryFrom? v chain.label
    match (← h.summaries[i]?).ends with
    | [_, target] => some (chain, i, target)
    | _ => none

/-- The heap with the summary at position `i` replaced by a step to a fresh node. -/
def splitOff (h : Heap) (v : Node) (sel : String) (i : Nat) : Heap :=
  (h.dropSummaries [i]).grow.setSelector v sel h.size

/-- The heaps in which the selector of the node is concrete. A heap in which it is concrete already
is returned as it is; otherwise the summary that hides it is unfolded by both rules. -/
def unfoldAt (A : Abstraction) (h : Heap) (v : Node) (sel : String) :
    Except UnfoldError (List Heap) :=
  if (h.selector? v sel).isSome then .ok [h]
  else if v = Node.null then .error (.impossible v sel)
  else
    match A.hiding? h v sel with
    | none => .error (.impossible v sel)
    | some (chain, i, target) =>
      let rest := splitOff h v sel i
      .ok [(rest.setSelector h.size sel target).normalize,
        (rest.addSummary chain.label [h.size, target]).normalize]

/-- Unfold one access point of a heap, if a summary hides it. -/
def unfoldPoint (A : Abstraction) (p : AccessPoint) (h : Heap) : Except UnfoldError (List Heap) :=
  match h.var? p.base with
  | some v => if A.hides h v p.selector then A.unfoldAt h v p.selector else .ok [h]
  | none => .ok [h]

/-- Unfold the access points one after the other, each in all heaps that the earlier ones left. -/
def unfold (A : Abstraction) (points : List AccessPoint) (h : Heap) :
    Except UnfoldError (List Heap) :=
  points.foldlM (fun heaps p => return (← heaps.mapM (A.unfoldPoint p)).flatten) [h]

end Abstraction

end ShapeCheck
