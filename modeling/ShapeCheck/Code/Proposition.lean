import ShapeCheck.Code.Resolve
import ShapeCheck.Tableau.Basic

/-!
# Truth of propositions

Atoms of a formula are texts. Read as propositions of the pointer language they speak about the heap
of a state; an atom that is not a proposition is false.
-/

namespace ShapeCheck

/-- Whether `start` leads to `target` in one or more steps. Null leads nowhere; and since selectors
to null are left out, null is reached where a node without successors is reached. -/
def Heap.reaches (h : Heap) (start target : Node) : Bool :=
  if start = Node.null then false
  else if target = Node.null then
    (h.reach [start]).any fun v => v = Node.null || (h.successors v).isEmpty
  else
    let roots := h.successors start
    target ∈ roots || target ∈ h.reach roots

/-- The truth of a proposition at a state. -/
def Source.Proposition.holds (s : State) : Source.Proposition → Bool
  | .compare lhs rhs equal => (s.heap.valueOf (some lhs) == s.heap.valueOf rhs) == equal
  | .reach source target => s.heap.reaches (s.heap.valueOf (some source)) (s.heap.valueOf target)
  | .terminated => s.isExit

/-- An atom holds if it reads as a proposition that holds. -/
def propositionLabels : Labelling := fun s atom =>
  match Source.parseWith Source.Parser.proposition atom with
  | .ok p => p.holds s
  | .error _ => false

/-- An atom holds if it names a variable of the heap. -/
def variableLabels : Labelling := fun s atom =>
  (s.heap.var? atom).isSome

end ShapeCheck
