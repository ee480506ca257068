import ShapeCheck.Collection.Lists
import ShapeCheck.Space.State
import Std.Data.TreeMap

/-!
# State spaces

A state space holds states in the order they were found, with typed steps between them. States are
looked up through an index by fingerprint; the index narrows the search, and equality of states
decides, so the choice of the fingerprint does not matter.

A state without successors is *final* and carries a loop to itself, so that every path goes on
forever. For checking formulae an unfolding step is not a step of its own: it is passed through to
the successors of the unfolded state.
-/

namespace ShapeCheck

/-- The number of a state, in order of insertion. A space may have any number of states; up to `2 ^ 32`
of them have the numbers that `StateId.ofIndex` gives. -/
abbrev StateId := Nat

/-- The state with an index in 32 bits. A larger index wraps around. -/
def StateId.ofIndex (i : Nat) : StateId := i % Text.bound32

/-- The number of a state after the letter `s`. -/
def StateId.text (id : StateId) : String :=
  "s" ++ id.repr

/-- What a step between states stands for. -/
inductive EdgeKind where
  /-- Running a statement. -/
  | flow
  /-- Unfolding a summary before the next statement. -/
  | unfolding
  /-- Staying in a final state forever. -/
  | loop
  deriving DecidableEq, Inhabited

/-- What a state is in its space. -/
inductive StateKind where
  | normal
  | unfolded
  | final
  deriving DecidableEq, Inhabited

/-- A state with its role and its outgoing steps. -/
structure Entry where
  state : State
  kind : StateKind
  /-- Whether its successors have been computed. -/
  expanded : Bool := false
  /-- The steps to other states, in the order they were added. -/
  edges : List (EdgeKind × StateId) := []
  deriving DecidableEq, Inhabited

/-- A table of states, looked up through the fingerprint `fp`. -/
structure StateSpace (fp : State → Nat) where
  /-- The states in order of insertion. -/
  entries : Array Entry := #[]
  /-- The states of each fingerprint. -/
  index : Std.TreeMap Nat (List StateId) := ∅
  /-- The initial states, without repetition. -/
  initial : List StateId := []
  /-- The final states, without repetition. -/
  finals : List StateId := []
  /-- How many insertions met an equal state. -/
  merges : Nat := 0

namespace StateSpace

variable {fp : State → Nat}

instance : Inhabited (StateSpace fp) := ⟨{}⟩

/-- The number of states. -/
def size (sp : StateSpace fp) : Nat :=
  sp.entries.size

/-- The state with a number. -/
def state? (sp : StateSpace fp) (id : StateId) : Option State :=
  sp.entries[id]?.map (·.state)

/-- The steps that leave a state. -/
def edges (sp : StateSpace fp) (id : StateId) : List (EdgeKind × StateId) :=
  match sp.entries[id]? with
  | some e => e.edges
  | none => []

/-- Whether a state is final. -/
def isFinal (sp : StateSpace fp) (id : StateId) : Bool :=
  sp.entries[id]?.any (·.kind = .final)

/-- Whether the successors of a state have been computed. -/
def isExpanded (sp : StateSpace fp) (id : StateId) : Bool :=
  sp.entries[id]?.any (·.expanded)

/-- The number of a state, if it is present. -/
def find? (sp : StateSpace fp) (s : State) : Option StateId :=
  (sp.index.getD (fp s) []).find? fun id => sp.state? id = some s

/-- Add a state unless an equal one is present. Returns its number and whether it is new. -/
def insert (sp : StateSpace fp) (s : State) : StateSpace fp × StateId × Bool :=
  match sp.find? s with
  | some id => ({ sp with merges := sp.merges + 1 }, id, false)
  | none =>
    let id := sp.size
    let kind := if s.unfolded then .unfolded else .normal
    ({ sp with
        entries := sp.entries.push { state := s, kind }
        index := sp.index.insert (fp s) (sp.index.getD (fp s) [] ++ [id]) }, id, true)

/-- Add an initial state. -/
def addInitial (sp : StateSpace fp) (s : State) : StateSpace fp × StateId × Bool :=
  let (sp, id, fresh) := sp.insert s
  let initial := if id ∈ sp.initial then sp.initial else sp.initial ++ [id]
  ({ sp with initial }, id, fresh)

/-- Add a step unless it is present. -/
def addEdge (sp : StateSpace fp) (source : StateId) (kind : EdgeKind) (target : StateId) :
    StateSpace fp :=
  { sp with entries := sp.entries.modify source fun e =>
      if (kind, target) ∈ e.edges then e else { e with edges := e.edges ++ [(kind, target)] } }

/-- Make a state final and close it by a loop. -/
def setFinal (sp : StateSpace fp) (id : StateId) : StateSpace fp :=
  if sp.isFinal id then sp
  else
    let sp := { sp with
      entries := sp.entries.modify id fun e => { e with kind := .final }
      finals := sp.finals ++ [id] }
    sp.addEdge id .loop id

/-- Record that the successors of a state have been computed. -/
def markExpanded (sp : StateSpace fp) (id : StateId) : StateSpace fp :=
  { sp with entries := sp.entries.modify id fun e => { e with expanded := true } }

/-- The targets of the steps of one kind. -/
def successors (sp : StateSpace fp) (id : StateId) (kind : EdgeKind) : List StateId :=
  ((sp.edges id).filter (·.1 = kind)).map Prod.snd

/-- The targets that one step leads to when unfoldings are passed through. -/
def throughEdge (sp : StateSpace fp) : EdgeKind × StateId → List StateId
  | (.unfolding, id) => ((sp.edges id).filter (·.1 ≠ .unfolding)).map Prod.snd
  | (_, id) => [id]

/-- The successors of a state on a path of the checked system, without repetition. -/
def checkSuccessors (sp : StateSpace fp) (id : StateId) : List StateId :=
  ((sp.edges id).flatMap sp.throughEdge).eraseDups

/-- The number of steps. -/
def edgeCount (sp : StateSpace fp) : Nat :=
  total (sp.entries.toList.map (·.edges.length))

/-- Whether no state has both unfolding steps and steps of its own. -/
def unfoldingIsExclusive (sp : StateSpace fp) : Bool :=
  sp.entries.all fun e =>
    !(e.edges.any (·.1 = .unfolding) && e.edges.any (·.1 = .flow))

end StateSpace

end ShapeCheck
