import ShapeCheck.Call.Scope
import ShapeCheck.Engine.Explore

/-!
# Answering calls by contracts

A call is cut down to the part of the heap that the callee can see. The canonical shape of this part
is a precondition; if no contract is recorded for it, the callee is analysed from it, and the heaps
in which it returns are its postconditions.

A recursive call meets a contract that is still under construction. It takes the postconditions
found so far, and the analysis is repeated until a round finds no new ones. A contract that used an
unfinished enclosing one is valid for the current round only, and is not recorded.
-/

namespace ShapeCheck

/-- Postconditions for a call. -/
structure Answer where
  /-- The heaps in which the callee returns. -/
  posts : List Heap
  /-- Whether they come from a recorded contract, and not from an unfinished one. -/
  recorded : Bool
  deriving DecidableEq, Inhabited

namespace Engine

/-- The final heap of a method as its caller sees it: only reserved variables and what they reach,
in canonical shape. -/
def harvestHeap (E : Engine) (h : Heap) : Heap :=
  E.abstraction.canonical (h.keepVars Call.isReserved).collect

/-- The final heaps of a state space. -/
def harvest (E : Engine) (sp : E.Space) : HeapSet :=
  let exits := (sp.finals.filterMap sp.state?).filter State.isExit
  .ofList (exits.map fun s => E.harvestHeap s.heap)

/-- The postconditions for a precondition, if an enclosing run is about to find them or a contract
is recorded. -/
def lookup (E : Engine) (method : String) (pre : Heap) : Run (Option Answer) := do
  let s ← get
  match consult method pre s.stack with
  | some (posts, stack) =>
    set { s with stack }
    return some ⟨posts.toList, false⟩
  | none =>
    Run.access
    let s ← get
    return (s.contracts.match? E.abstraction method pre).map fun (_, posts) => ⟨posts.toList, true⟩

/-- Add final heaps to the innermost contract. Returns whether another round is needed: the contract
was consulted before, and there are new heaps. -/
def join (posts : HeapSet) : Run Bool :=
  modifyGet fun s =>
    match s.stack with
    | [] => (false, s)
    | p :: rest =>
      let joined := p.posts.union posts
      let again := p.consulted && joined.size ≠ p.posts.size
      (again, { s with
        stack := { p with posts := joined, consulted := p.consulted && !again } :: rest })

/-- Analyse a method until the final heaps that recursive calls use are all that there are. -/
def settle (E : Engine) (call : CallHandler) (steps : Nat) (method : String) (pre : Heap) :
    (rounds : Nat) → Run Unit
  | 0 => throw .outOfSteps
  | rounds + 1 => do
    let (sp, _) ← E.generateWith call steps method [pre] .depthFirst
    if ← join (E.harvest sp) then
      E.settle call steps method pre rounds

/-- Find and record the contract of a method for a precondition. A contract that depends on an
unfinished one is returned instead. -/
def conclude (E : Engine) (call : CallHandler) (steps : Nat) (method : String) (pre : Heap) :
    Run (Option Answer) := do
  match ← Run.within method pre (E.settle call steps method pre steps) with
  | none => return some ⟨[], false⟩
  | some p =>
    if p.dependent then return some ⟨p.posts.toList, false⟩
    else
      Run.access
      modify (·.record method pre p.posts)
      return none

/-- The precondition from which a contract is found: the given one, or its most general shape. -/
def contractStart (E : Engine) (pre : Heap) : Heap :=
  if E.settings.generalize then E.abstraction.coarsest pre else pre

/-- The postconditions for a precondition that need not be found: those of the heap itself, or else
those of the heap from which its contract would start. -/
def remembered (E : Engine) (method : String) (pre : Heap) : Run (Option Answer) := do
  if let some a ← E.lookup method pre then
    return some a
  if E.contractStart pre ≠ pre then
    E.lookup method (E.contractStart pre)
  else return none

/-- The postconditions for a precondition. -/
def postconditions (E : Engine) (call : CallHandler) (steps : Nat) (method : String) (pre : Heap) :
    Run Answer := do
  if let some a ← E.remembered method pre then
    return a
  if let some a ← E.conclude call steps method (E.contractStart pre) then
    return a
  match ← E.lookup method pre with
  | some a => return a
  | none => throw (.contractMismatch method)

/-- Keep the postconditions that admit a required final heap, if there are requirements. For a
recorded contract the choice is recorded too. -/
def refine (E : Engine) (method : String) (pre : Heap) (a : Answer) : Run (List Heap) := do
  let s ← get
  match s.required.find? method with
  | none => return a.posts
  | some required =>
    match if a.recorded then s.contracts.matchRefined? method pre required else none with
    | some posts => return posts.toList
    | none =>
      let views := required.toList.flatMap E.abstraction.views
      let posts := a.posts.filter (· ∈ views)
      if a.recorded then
        set { s with contracts := s.contracts.addRefined method ⟨required, pre, .ofList posts⟩ }
      return posts

/-- The caller's heaps after a call that does nothing. -/
def skipCall (site : Code.CallSite) (h : Heap) : List Heap :=
  match site.result with
  | some x => [h.setVar x Node.null]
  | none => [h]

/-- Answer a call. The number of steps bounds the nesting of calls, the rounds of each contract and
the states of each round. -/
def invoke (E : Engine) : (steps : Nat) → CallHandler
  | 0, _, _ => throw .outOfSteps
  | steps + 1, site, h => do
    if site.method ∈ E.settings.skipped then
      return skipCall site h
    match E.program.method? site.method with
    | none => throw (.unknownMethod site.method)
    | some m =>
      let (start, frame) := Call.enter h m.params site.args
      let pre := E.abstraction.canonical start
      let a ← E.postconditions (E.invoke steps) steps site.method pre
      let posts ← E.refine site.method pre a
      return posts.map (frame.resume · site.result)

end Engine

end ShapeCheck
