import ShapeCheck.Collection.SortedSet
import ShapeCheck.Collection.Lists
import ShapeCheck.Shape.Fold

/-!
# Contracts

A contract says which heaps a method can return from a heap it starts with. A table holds the
contracts of one method: at most one for each precondition, and adding a second one joins the
postconditions. *Refined* contracts are kept apart; each belongs to a precondition and a set of
required final heaps, and none of them is ever joined to the general ones.
-/

namespace ShapeCheck

/-- A set of heaps. -/
abbrev HeapSet := SortedSet Heap

/-- A contract narrowed to the postconditions that admit some required final heap. -/
structure RefinedContract where
  /-- The required final heaps. -/
  required : HeapSet
  /-- The heap the method starts with. -/
  pre : Heap
  /-- The heaps it can return. -/
  posts : HeapSet
  deriving DecidableEq

/-- The contracts of one method. -/
structure ContractTable where
  /-- The postconditions of each precondition. -/
  general : SortedMap Heap HeapSet := ∅
  /-- The refined contracts in the order they were added. -/
  refined : List RefinedContract := []
  deriving DecidableEq

namespace ContractTable

instance : Inhabited ContractTable := ⟨{}⟩

/-- The number of general contracts. -/
def size (t : ContractTable) : Nat :=
  t.general.size

/-- Join postconditions to those of a precondition. -/
def add (t : ContractTable) (pre : Heap) (posts : HeapSet) : ContractTable :=
  { t with general := t.general.insert pre (((t.general.find? pre).getD ∅).union posts) }

/-- Add a refined contract unless an equal one is present. -/
def addRefined (t : ContractTable) (c : RefinedContract) : ContractTable :=
  if c ∈ t.refined then t else { t with refined := t.refined ++ [c] }

/-- The contract for a heap: the one with this very precondition, or else the first in heap order
whose precondition subsumes the heap. -/
def match? (t : ContractTable) (A : Abstraction) (h : Heap) : Option (Heap × HeapSet) :=
  match t.general.find? h with
  | some posts => some (h, posts)
  | none =>
    let views := A.views h
    t.general.toList.find? (·.1 ∈ views)

/-- The refined postconditions for exactly this precondition and these required heaps. -/
def matchRefined? (t : ContractTable) (pre : Heap) (required : HeapSet) : Option HeapSet :=
  (t.refined.find? fun c => c.pre = pre && c.required = required).map RefinedContract.posts

end ContractTable

/-- The contracts of all methods. -/
structure ContractStore where
  /-- The table of each method that has one. -/
  tables : SortedMap String ContractTable := ∅
  deriving DecidableEq

namespace ContractStore

instance : Inhabited ContractStore := ⟨{}⟩

/-- The number of general contracts of all methods. -/
def size (s : ContractStore) : Nat :=
  total (s.tables.values.map ContractTable.size)

/-- The table of a method. -/
def table? (s : ContractStore) (method : String) : Option ContractTable :=
  s.tables.find? method

/-- Change the table of a method, which is empty if there was none. -/
def modify (s : ContractStore) (method : String) (f : ContractTable → ContractTable) :
    ContractStore :=
  ⟨s.tables.insert method (f ((s.table? method).getD {}))⟩

/-- Add a general contract. -/
def add (s : ContractStore) (method : String) (pre : Heap) (posts : HeapSet) : ContractStore :=
  s.modify method (·.add pre posts)

/-- Add a refined contract. -/
def addRefined (s : ContractStore) (method : String) (c : RefinedContract) : ContractStore :=
  s.modify method (·.addRefined c)

/-- The contract of a method for a heap. -/
def match? (s : ContractStore) (A : Abstraction) (method : String) (h : Heap) :
    Option (Heap × HeapSet) := do
  (← s.table? method).match? A h

/-- Add all contracts of another store. -/
def join (s other : ContractStore) : ContractStore :=
  other.tables.toList.foldl (fun s t =>
    t.2.refined.foldl (fun s c => s.addRefined t.1 c)
      (t.2.general.toList.foldl (fun s c => s.add t.1 c.1 c.2) s)) s

/-- The postconditions of all general contracts of a method, in order. -/
def posts (s : ContractStore) (method : String) : List Heap :=
  ((s.table? method).getD {}).general.values.flatMap SortedSet.toList

/-- The refined postconditions of a method. -/
def matchRefined? (s : ContractStore) (method : String) (pre : Heap) (required : HeapSet) :
    Option HeapSet := do
  (← s.table? method).matchRefined? pre required

end ContractStore

end ShapeCheck
