import ShapeCheck.Engine.Session
import ShapeCheck.Search

/-!
# Generating a state space

The states of a method are found by expanding one state after the other. If a summary may hide the
selector that a statement goes through, the state first leads to its unfolded variants; each of
them, or else the state itself, then leads to the canonical shapes of what the statement leaves.

How calls are answered is a parameter here.
-/

namespace ShapeCheck

/-- The answer to a call: the heaps that it can return. -/
abbrev CallHandler := Code.CallSite → Heap → Run (List Heap)

namespace Engine

/-- The places and heaps that follow a statement. -/
def successors (call : CallHandler) (stmt : Code.Statement) (h : Heap) :
    Run (List (Location × Heap)) :=
  match stmt.step h with
  | .moves next => return next
  | .call site => return (← call site h).map (stmt.next, ·)
  | .fault => throw (.nullDereference stmt.nullDereference)

/-- The state that a place and a heap are recorded as. -/
def settled (E : Engine) (location : Location) (h : Heap) : State :=
  { heap := E.abstraction.canonical (if E.settings.pruning then h.collect else h), location }

/-- The heaps that a statement needs its heap unfolded to. If no summary hides the selector, there
are none. -/
def variants (E : Engine) (stmt : Code.Statement) (h : Heap) : Run (List Heap) := do
  unless stmt.needsUnfolding h do
    return []
  match E.abstraction.unfold stmt.accessPoints h with
  | .ok heaps => return if heaps.any (· ≠ h) then heaps else []
  | .error e => throw (.unfolding e)

/-- Add an unfolded variant of a state. Returns it as a source of further steps if it is new. -/
def addVariant (E : Engine) (id : StateId) (location : Location) :
    E.Space × List (StateId × Heap) → Heap → Run (E.Space × List (StateId × Heap))
  | (sp, sources), h => do
    let (sp, variant, fresh) := sp.insert ⟨h, location, true⟩
    Run.note (.inserted fresh)
    let sp := sp.addEdge id .unfolding variant
    Run.countIf fresh
    return (if fresh then sp.markExpanded variant else sp,
      sources ++ if fresh then [(variant, h)] else [])

/-- Add a successor of a state. Returns it if it is new. -/
def addSuccessor (E : Engine) (source : StateId) :
    E.Space × List StateId → Location × Heap → Run (E.Space × List StateId)
  | (sp, found), (location, h) => do
    let (sp, target, fresh) := sp.insert (E.settled location h)
    Run.note (.inserted fresh)
    let sp := sp.addEdge source .flow target
    Run.countIf fresh
    return (sp, found ++ if fresh then [target] else [])

/-- Run a statement from one source. A source without successors is final. -/
def runFrom (E : Engine) (call : CallHandler) (stmt : Code.Statement) :
    E.Space × List StateId → StateId × Heap → Run (E.Space × List StateId)
  | (sp, found), (source, h) => do
    let next ← successors call stmt h
    let sp := if next.isEmpty then sp.setFinal source else sp
    next.foldlM (E.addSuccessor source) (sp, found)

/-- The statement that a state is about to run. -/
def statementAt? (m : Code.Method) (s : State) : Option Code.Statement :=
  match s.location with
  | .line i => m.statement? i
  | .exit => none

/-- Expand a state. Returns the successors that are new. -/
def expand (E : Engine) (call : CallHandler) (m : Code.Method) (sp : E.Space) (id : StateId) :
    Run (E.Space × List StateId) := do
  let s := (sp.state? id).getD default
  let sp := sp.markExpanded id
  match statementAt? m s with
  | none => return (sp.setFinal id, [])
  | some stmt =>
    let variants ← E.variants stmt s.heap
    let (sp, sources) ←
      if variants.isEmpty then pure (sp, [(id, s.heap)])
      else variants.foldlM (E.addVariant id s.location) (sp, [])
    sources.foldlM (E.runFrom call stmt) (sp, [])

/-- Expand a state unless this was done before. -/
def visit (E : Engine) (call : CallHandler) (m : Code.Method) (sp : E.Space) (id : StateId) :
    Run (E.Space × List StateId) := do
  if sp.isExpanded id then
    return (sp, [])
  Run.note .expanding
  E.expand call m sp id

/-- Expand states until none waits or the verdict of the search is known. -/
def explore (E : Engine) (call : CallHandler) (m : Code.Method) :
    (steps : Nat) → E.Space → Search → Run (E.Space × Option Verdict)
  | 0, _, _ => throw .outOfSteps
  | steps + 1, sp, S =>
    match S.pop? with
    | none => return (sp, S.finish)
    | some (id, S) => do
      Run.checkLimits E.clock
      let (sp, found) ← E.visit call m sp id
      modify (·.countExpanded S.pending)
      match S.expanded sp id found with
      | (_, some v) => return (sp, some v)
      | (S, none) => E.explore call m steps sp S

/-- Add an initial state and start from it if it is new. -/
def addStart (E : Engine) : E.Space × Search → Heap → Run (E.Space × Search)
  | (sp, S), h => do
    let (sp, id, fresh) := sp.addInitial { heap := E.abstraction.canonical h, location := .line 0 }
    Run.note (.inserted fresh)
    Run.countIf fresh
    return (sp, if fresh then S.start id else S)

/-- The state space of a method from the given heaps, found by the given search. -/
def generateWith (E : Engine) (call : CallHandler) (steps : Nat) (method : String)
    (heaps : List Heap) (S : Search) : Run (E.Space × Option Verdict) := do
  match E.program.method? method with
  | none => throw (.unknownMethod method)
  | some m =>
    if heaps.isEmpty then
      throw .noInitialHeaps
    let (sp, S) ← heaps.foldlM E.addStart ({}, S)
    E.explore call m steps sp S

end Engine

end ShapeCheck
