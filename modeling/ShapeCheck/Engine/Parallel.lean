import ShapeCheck.Engine.Verify

/-!
# Generating several state spaces at a time

The state spaces of several methods are generated by tasks that run at the same time. Each task has a
session of its own with the bounds of the settings; the contracts are shared. A task sees what the
others have recorded whenever it gets at the contracts, and what it records is seen by the others from
then on.

In which order the tasks get at the contracts is not determined, so it is a parameter here: a
schedule of turns. A task with a turn goes on up to its next access. Since a task does nothing but
run, it is at any time given by what it has seen of the shared contracts so far.
-/

namespace ShapeCheck

/-- A turn of a task. -/
structure Turn where
  /-- The position of the task. -/
  task : Nat
  /-- Whether the task goes on to its end, with no other in between. -/
  last : Bool := false
  deriving DecidableEq, Inhabited

/-- The counters of an analysis after a further task. -/
def Progress.add (p task : Progress) : Progress where
  states := p.states + task.states
  contracts := p.contracts + task.contracts
  queue := if task.checked = 0 then p.queue else task.queue
  checked := p.checked + task.checked

/-- A task that generates the state space of a method. -/
structure Worker (E : Engine) where
  method : String
  heaps : List Heap
  /-- What it has seen of the shared contracts, access after access. -/
  seen : List ContractStore := []
  /-- Whether it stops before the next access. -/
  waits : Bool := true
  /-- What it has found. Unless it is at its end, it is out of steps. -/
  result : Except GenerationError E.Space := .error .outOfSteps
  /-- The session it has come to. -/
  session : Session := E.session

/-- The session in which a task starts that is given by what it sees of the shared contracts. -/
def Worker.start {E : Engine} (w : Worker E) (contracts : ContractStore) : Session :=
  { E.session with contracts, turns := w.seen, waits := w.waits }

/-- Let a task see the shared contracts. -/
def Worker.see {E : Engine} (w : Worker E) (shared : ContractStore) (last : Bool) : Worker E :=
  { w with seen := w.seen ++ [shared], waits := !last }

/-- Let a task see the shared contracts, and go on. -/
def Worker.resume {E : Engine} (w : Worker E) (steps : Nat) (contracts shared : ContractStore)
    (last : Bool) : Worker E :=
  let w := w.see shared last
  let (result, session) := (E.generate steps w.method w.heaps).run.run (w.start contracts)
  { w with result, session }

namespace Engine

/-- Give a turn to a task that waits, and share what it has recorded. -/
def grant (E : Engine) (steps : Nat) (contracts : ContractStore) :
    ContractStore × List (Worker E) → Turn → ContractStore × List (Worker E)
  | (shared, workers), turn =>
    match workers[turn.task]? with
    | none => (shared, workers)
    | some w =>
      if w.waits then
        let w := w.resume steps contracts shared turn.last
        (shared.join w.session.contracts, workers.set turn.task w)
      else (shared, workers)

/-- The turns of a number of tasks: those of the schedule, and then one after the other goes on to
its end. -/
def turnsOf (schedule : List Turn) (tasks : Nat) : List Turn :=
  schedule ++ (List.range tasks).map fun task => { task, last := true }

/-- The shared contracts and the tasks after some turns. -/
def work (E : Engine) (steps : Nat) (contracts : ContractStore) (tasks : List (String × List Heap))
    (turns : List Turn) : ContractStore × List (Worker E) :=
  turns.foldl (E.grant steps contracts) (contracts, tasks.map fun t => { method := t.1, heaps := t.2 })

/-- Generate the state spaces of several methods. The tasks get at the shared contracts in the order
of the schedule. -/
def generateAll (E : Engine) (steps : Nat) (schedule : List Turn) (tasks : List (String × List Heap)) :
    StateM Session (List (String × Except GenerationError E.Space)) := do
  let s ← get
  let (contracts, workers) := E.work steps s.contracts tasks (turnsOf schedule tasks.length)
  let progress := workers.foldl (fun p w => p.add w.session.progress) s.progress
  set { s with contracts, progress }
  return workers.map fun w => (w.method, w.result)

end Engine

end ShapeCheck
