import ShapeCheck.Archive.Json
import ShapeCheck.Contract.Table

/-!
# Heaps and contracts as Json

A record is written as an object. It is read from an object, in which other names are passed over
and no name of the record is repeated, or from an array that holds its parts in order. A map is an
object; of a name that is repeated the last value counts. Nodes are numbers of 32 bits.

What stands under another name is not looked at, except in a refined contract. Its parts are set
aside until the whole object has been read, and for that they have to be values.
-/

namespace ShapeCheck

namespace Json

/-- The values of a name among fields: at most one is allowed. -/
def single? (fields : List (String × Json)) (name : String) : Option (Option Json) :=
  match fields.filter (·.1 = name) with
  | [] => some none
  | [(_, x)] => some (some x)
  | _ => none

/-- The parts of a record that stands as an object. -/
def objectParts? (names : List String) : Json → Option (List (Option Json))
  | obj fields => names.mapM (single? fields)
  | _ => none

/-- The parts of a record, in the order of their names; a part may be missing. -/
def parts? (names : List String) : Json → Option (List (Option Json))
  | arr items =>
    if items.length ≤ names.length then
      some (items.map some ++ List.replicate (names.length - items.length) none)
    else none
  | j => j.objectParts? names

/-- The items of an array, each read by `f`. -/
def listOf? {α : Type} (f : Json → Option α) : Json → Option (List α)
  | arr items => items.mapM f
  | _ => none

/-- The fields of an object, each value read by `f`. -/
def mapOf? {α : Type} (f : Json → Option α) : Json → Option (SortedMap String α)
  | obj fields => do
    return .ofList (← fields.mapM fun (name, x) => return (name, ← f x))
  | _ => none

/-- A text. -/
def str? : Json → Option String
  | str s => some s
  | _ => none

/-- A number below a bound. -/
def below? (bound : Nat) : Json → Option Nat
  | nat n => if n < bound then some n else none
  | _ => none

/-- A map as an object. -/
def ofMap {α : Type} (f : α → Json) (m : SortedMap String α) : Json :=
  obj (m.toList.map fun (name, a) => (name, f a))

/-- A list as an array. -/
def ofList {α : Type} (f : α → Json) (l : List α) : Json :=
  arr (l.map f)

end Json

open Json

/-- The number of a node. -/
def Node.ofJson? : Json → Option Node :=
  below? Text.bound32

/-- The selectors of a node as Json. -/
def Cell.toJson (c : Cell) : Json :=
  obj [("selectors", ofMap nat c)]

/-- The selectors of a node. -/
def Cell.ofJson? (j : Json) : Option Cell := do
  match ← j.parts? ["selectors"] with
  | [some sels] => sels.mapOf? Node.ofJson?
  | _ => none

/-- A summary as Json. -/
def Summary.toJson (e : Summary) : Json :=
  obj [("label", str e.label), ("tentacles", ofList nat e.ends)]

/-- A summary. -/
def Summary.ofJson? (j : Json) : Option Summary := do
  match ← j.parts? ["label", "tentacles"] with
  | [some label, some ends] => return ⟨← label.str?, ← ends.listOf? Node.ofJson?⟩
  | _ => none

/-- A heap as Json. -/
def Heap.toJson (h : Heap) : Json :=
  obj [("nodes", ofList Cell.toJson h.cells), ("variables", ofMap nat h.vars),
    ("nonterminals", ofList Summary.toJson h.summaries)]

/-- A heap. -/
def Heap.ofJson? (j : Json) : Option Heap := do
  match ← j.parts? ["nodes", "variables", "nonterminals"] with
  | [some cells, some vars, some summaries] =>
    return ⟨← cells.listOf? Cell.ofJson?, ← vars.mapOf? Node.ofJson?,
      ← summaries.listOf? Summary.ofJson?⟩
  | _ => none

/-- A set of heaps as Json. -/
def HeapSet.toJson (s : HeapSet) : Json :=
  ofList Heap.toJson s.toList

/-- A set of heaps. -/
def HeapSet.ofJson? (j : Json) : Option HeapSet := do
  return .ofList (← j.listOf? Heap.ofJson?)

/-- A general contract as Json. -/
def contractToJson (c : Heap × HeapSet) : Json :=
  obj [("precondition", c.1.toJson), ("postconditions", HeapSet.toJson c.2)]

/-- A general contract. -/
def contractOfJson? (j : Json) : Option (Heap × HeapSet) := do
  match ← j.parts? ["precondition", "postconditions"] with
  | [some pre, some posts] => return (← Heap.ofJson? pre, ← HeapSet.ofJson? posts)
  | _ => none

/-- A refined contract as Json. -/
def RefinedContract.toJson (c : RefinedContract) : Json :=
  obj [("required", HeapSet.toJson c.required), ("precondition", c.pre.toJson),
    ("postconditions", HeapSet.toJson c.posts)]

/-- The greatest number of levels of a value that is set aside: a file has at most 127 levels, and the
refined contract itself stands in the fifth one. -/
def asideLevels : Nat := 122

/-- Whether the values of the fields that are set aside are sound. -/
def Json.asideIsSound : Json → Bool
  | obj fields => fieldsAreSound asideLevels (fields.filter (·.1 ≠ "required"))
  | _ => false

/-- A refined contract, which stands as an object only. -/
def RefinedContract.ofJson? (j : Json) : Option RefinedContract := do
  if !j.asideIsSound then none else
  match ← j.objectParts? ["required", "precondition", "postconditions"] with
  | [some required, some pre, some posts] =>
    return ⟨← HeapSet.ofJson? required, ← Heap.ofJson? pre, ← HeapSet.ofJson? posts⟩
  | _ => none

/-- The contracts of a method as Json. -/
def ContractTable.toJson (t : ContractTable) : Json :=
  obj [("contracts", ofList contractToJson t.general.toList),
    ("refined", ofList RefinedContract.toJson t.refined)]

/-- The contracts of a method. General contracts are joined one after the other, and refined ones,
which may be missing, are taken as they are. -/
def ContractTable.ofJson? (j : Json) : Option ContractTable := do
  match ← j.parts? ["contracts", "refined"] with
  | [some general, refined?] =>
    let general ← general.listOf? contractOfJson?
    let refined ← (refined?.getD (arr [])).listOf? RefinedContract.ofJson?
    let table := general.foldl (fun (t : ContractTable) (pre, posts) => t.add pre posts) {}
    return { table with refined }
  | _ => none

/-- The contracts of all methods as Json. -/
def ContractStore.toJson (s : ContractStore) : Json :=
  ofMap ContractTable.toJson s.tables

/-- The contracts of all methods. -/
def ContractStore.ofJson? (j : Json) : Option ContractStore := do
  return ⟨← j.mapOf? ContractTable.ofJson?⟩

end ShapeCheck
