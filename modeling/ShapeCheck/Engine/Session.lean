import ShapeCheck.Code.Program
import ShapeCheck.Contract.Table
import ShapeCheck.Engine.Limit
import ShapeCheck.Space.Basic

/-!
# Sessions

An engine is a program with an abstraction and settings; it never changes. What changes while it
runs is its session: the contracts found so far, the contracts under construction, counters, and
notes of what has happened. A session survives an error, so later runs profit from the contracts
that earlier ones recorded.

Contracts may be shared with other tasks. What those have recorded shows when the session gets at
the contracts: it has *turns*, one for each access, with the contracts that are shared by then.
-/

namespace ShapeCheck

/-- The switches of an analysis. -/
structure Settings where
  /-- The bound on states; zero is no bound. -/
  maxStates : Nat := 0
  /-- The bound on seconds; zero is no bound. -/
  maxSeconds : Nat := 0
  /-- The bound on megabytes; zero is no bound. -/
  maxMegabytes : Nat := 0
  /-- Whether a call without a contract starts from the most general shape of its heap. -/
  generalize : Bool := false
  /-- Whether properties are checked at all. -/
  checking : Bool := true
  /-- Whether properties are checked while states are generated. -/
  onTheFly : Bool := true
  /-- Whether garbage is collected after every statement. -/
  pruning : Bool := true
  /-- The methods whose calls do nothing. -/
  skipped : List String := []
  deriving DecidableEq, Inhabited

/-- The bounds of the settings. -/
def Settings.limits (s : Settings) : Limits :=
  .ofNumbers s.maxStates s.maxSeconds s.maxMegabytes

/-- Why a state space could not be generated. -/
inductive GenerationError where
  /-- A bound was reached. -/
  | aborted (reason : LimitReached)
  /-- A summary could not be unfolded. -/
  | unfolding (error : UnfoldError)
  /-- A contract does not fit the heap it was made for. -/
  | contractMismatch (method : String)
  /-- A statement went through null. -/
  | nullDereference (error : Code.NullDereference)
  /-- There is no such method. -/
  | unknownMethod (name : String)
  /-- There is nothing to start from. -/
  | noInitialHeaps
  /-- The number of steps that was granted is used up. -/
  | outOfSteps
  deriving DecidableEq, Inhabited

/-- The wording of a generation error. -/
def GenerationError.message : GenerationError → String
  | .aborted reason =>
    "state space generation aborted, non-termination suspected: " ++ reason.message
  | .unfolding e => "materialization impossible: " ++ e.message
  | .contractMismatch method =>
    "no contract of '" ++ method ++ "' matches its own precondition after generation"
  | .nullDereference e => "at location " ++ e.line.repr ++ ": " ++ e.message
  | .unknownMethod name => "unknown method '" ++ name ++ "'"
  | .noInitialHeaps => "no initial heaps given"
  | .outOfSteps => "out of steps"

/-- A contract under construction. -/
structure Pending where
  method : String
  /-- The heap it starts with. -/
  pre : Heap
  /-- The final heaps found so far. -/
  posts : HeapSet := ∅
  /-- Whether a recursive call used the final heaps before they were complete. -/
  consulted : Bool := false
  /-- Whether the run used final heaps of an enclosing run that is not complete. What it finds is
  then valid for one round of that run only. -/
  dependent : Bool := false
  deriving DecidableEq

/-- Counters that show how far an analysis is. -/
structure Progress where
  /-- The states found. -/
  states : Nat := 0
  /-- The contracts recorded. -/
  contracts : Nat := 0
  /-- The states that wait. -/
  queue : Nat := 0
  /-- The states expanded. -/
  checked : Nat := 0
  deriving DecidableEq, Inhabited

/-- What happens in the course of a run. -/
inductive Event where
  /-- A state is put into a space: it is new, or it was there before. -/
  | inserted (fresh : Bool)
  /-- A generation takes up a state that waits. -/
  | taken
  /-- A generation begins to expand a state. -/
  | expanding
  deriving DecidableEq

/-- An event with the effort of the run at that moment. -/
structure Note where
  event : Event
  /-- The effort; a state that is just put into a space has not been counted yet. -/
  effort : Nat
  deriving DecidableEq

/-- The changing part of an analysis. -/
structure Session where
  /-- The bounds in use. -/
  limits : Limits := []
  /-- The contracts recorded. -/
  contracts : ContractStore := {}
  /-- The contracts under construction, the innermost first. -/
  stack : List Pending := []
  /-- The number of states found in the current run. -/
  effort : Nat := 0
  /-- What has happened in the current run, the latest first. -/
  notes : List Note := []
  progress : Progress := {}
  /-- The final heaps that are required of a method. -/
  required : SortedMap String HeapSet := ∅
  /-- The shared contracts as they are at the next accesses. -/
  turns : List ContractStore := []
  /-- Whether there is no access without a turn. -/
  waits : Bool := false
  deriving DecidableEq

/-- The fixed part of an analysis. -/
structure Engine where
  program : Code.Program
  abstraction : Abstraction := {}
  settings : Settings := {}
  /-- What is seen of time and memory in a session. -/
  clock : Session → Reading := fun _ => {}
  /-- The hash by which states are found again. -/
  fingerprint : State → Nat := State.fingerprint

/-- State spaces as the analysis builds them. -/
abbrev Engine.Space (E : Engine) := StateSpace E.fingerprint

namespace Session

instance : Inhabited Session := ⟨{}⟩

/-- Begin a new run. -/
def restart (s : Session) : Session :=
  { s with effort := 0, notes := [] }

/-- Begin a contract. -/
def push (s : Session) (method : String) (pre : Heap) : Session :=
  { s with stack := { method, pre } :: s.stack }

/-- End the innermost contract. -/
def pop (s : Session) : Option Pending × Session :=
  match s.stack with
  | [] => (none, s)
  | p :: stack => (some p, { s with stack })

/-- Note an event. -/
def note (s : Session) (event : Event) : Session :=
  { s with notes := ⟨event, s.effort⟩ :: s.notes }

/-- Count a state that is put into a space, if it is new. -/
def countIf (s : Session) (fresh : Bool) : Session :=
  if fresh then
    { s with
      effort := s.effort + 1
      progress := { s.progress with states := s.progress.states + 1 } }
  else s

/-- Count an expanded state. -/
def countExpanded (s : Session) (waiting : Nat) : Session :=
  { s with
    progress := { s.progress with checked := s.progress.checked + 1, queue := waiting } }

/-- Record a contract. -/
def record (s : Session) (method : String) (pre : Heap) (posts : HeapSet) : Session :=
  { s with
    contracts := s.contracts.add method pre posts
    progress := { s.progress with contracts := s.progress.contracts + 1 } }

/-- See what is shared before the contracts are used. A session that waits needs a turn for it. -/
def access? (s : Session) : Option Session :=
  match s.turns with
  | [] => if s.waits then none else some s
  | shared :: turns => some { s with contracts := s.contracts.join shared, turns }

end Session

/-- Use the contract under construction for a method and a heap, if there is one. The innermost one
is marked as consulted, and all that are nested in it as dependent. Returns its final heaps. -/
def consult (method : String) (pre : Heap) : List Pending → Option (HeapSet × List Pending)
  | [] => none
  | p :: rest =>
    if p.method = method ∧ p.pre = pre then
      some (p.posts, { p with consulted := true } :: rest)
    else
      (consult method pre rest).map fun (posts, rest) =>
        (posts, { p with dependent := true } :: rest)

/-- A computation on a session that may fail; the session is kept. -/
abbrev Run := ExceptT GenerationError (StateM Session)

namespace Run

/-- Count a state that was put into a space, if it is new. -/
def countIf (fresh : Bool) : Run Unit :=
  modify (·.countIf fresh)

/-- Note an event. -/
def note (event : Event) : Run Unit :=
  modify (·.note event)

/-- Stop if a bound is reached when a state is taken up. -/
def checkLimits (clock : Session → Reading) : Run Unit := do
  let s ← get
  let (limits, reason?) := s.limits.check (clock s) s.effort
  set (Session.note { s with limits } .taken)
  if let some reason := reason? then
    throw (.aborted reason)

/-- Get at the contracts. -/
def access : Run Unit := do
  match (← get).access? with
  | some s => set s
  | none => throw .outOfSteps

/-- Run something inside a contract under construction. However it ends, the contract is taken off
the stack again. -/
def within (method : String) (pre : Heap) (act : Run Unit) : Run (Option Pending) :=
  ExceptT.mk do
    modify (·.push method pre)
    let result ← act.run
    let p ← modifyGet Session.pop
    return result.map fun _ => p

end Run

end ShapeCheck
