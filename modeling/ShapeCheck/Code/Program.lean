import ShapeCheck.Code.Statement
import ShapeCheck.Logic.Ltl

/-!
# Methods and programs

A method is a list of statements, one a line. A method whose source names no initial heaps starts
from every combination of its parameters being null or a short list.
-/

namespace ShapeCheck

/-- The selector that links the cells of a list. -/
def linkSelector : String := "next"

/-- The heap with `n` fresh cells linked one to the next, and the first of them. The last cell leads
back to the first if the list is to be cyclic, and nowhere otherwise. No cells are null. -/
def Heap.addList (h : Heap) (n : Nat) (cyclic : Bool) : Heap × Node :=
  let link (i : Nat) : Cell :=
    if i + 1 < n then (∅ : Cell).insert linkSelector (h.size + i + 1)
    else if cyclic then (∅ : Cell).insert linkSelector h.size
    else ∅
  ({ h with cells := h.cells ++ (List.range n).map link }, if n = 0 then Node.null else h.size)

namespace Code

/-- A method ready to run. -/
structure Method where
  name : String
  params : List String
  /-- The statements, by line. -/
  statements : List Statement
  /-- The initial heaps that the source gives. -/
  inits : List Heap := []
  deriving DecidableEq, Inhabited

namespace Method

/-- The length of the lists that parameters are bound to. -/
def sampleLength : Nat := 2

/-- The number of parameters that are varied. -/
def sampleParams : Nat := 16

/-- Bind parameters by the binary digits of `mask`: a digit one is a fresh list, zero is null. -/
def sampleHeap (params : List String) (mask : Nat) : Heap :=
  (params.zipIdx.foldl (fun h (x, i) =>
    let (h', v) := if mask.testBit i then h.addList sampleLength false else (h, Node.null)
    h'.setVar x v) Heap.empty)

/-- The statement at a line. -/
def statement? (m : Method) (line : Nat) : Option Statement :=
  m.statements[line]?

/-- The heaps the method starts from: those of the source, or all combinations of null and a short
list for the first parameters, the others being null. -/
def initialHeaps (m : Method) : List Heap :=
  if m.inits.isEmpty then
    (List.range (Nat.pow 2 (min m.params.length sampleParams))).map (sampleHeap m.params)
  else m.inits

end Method

/-- A property to check. -/
structure Property where
  name : String
  /-- The formula in negation normal form. -/
  formula : Formula
  deriving DecidableEq, Inhabited

/-- A program ready to run. -/
structure Program where
  /-- The methods by name. -/
  methods : SortedMap String Method := ∅
  /-- The properties in order. -/
  properties : List Property := []
  deriving DecidableEq

namespace Program

instance : Inhabited Program := ⟨{}⟩

/-- The method of a name. -/
def method? (p : Program) (name : String) : Option Method :=
  p.methods.find? name

/-- The heaps a method starts from; there are none for an unknown method. -/
def initialHeaps (p : Program) (name : String) : List Heap :=
  ((p.method? name).map Method.initialHeaps).getD []

end Program

end Code

end ShapeCheck
