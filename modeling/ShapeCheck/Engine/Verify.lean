import ShapeCheck.Engine.Invoke

/-!
# Verification

The public operations of an engine on one method: its state space, and the verdicts on its
properties.
-/

namespace ShapeCheck

/-- The verdict on one property. -/
structure PropertyResult where
  name : String
  verdict : Verdict
  /-- The states of the counterexample, the stem before the cycle. -/
  trace : List State
  /-- Where in the trace the cycle starts, if there is one. -/
  cycleStart? : Option Nat
  deriving DecidableEq, Inhabited

/-- The verdict on a property with the states it speaks about. -/
def PropertyResult.of {fp : State → Nat} (sp : StateSpace fp) (name : String) (v : Verdict) :
    PropertyResult :=
  match v with
  | .satisfied => ⟨name, v, [], none⟩
  | .violated path => ⟨name, v, path.trace sp, path.cycleStart?⟩

/-- The outcome of a verification. -/
structure Report (fp : State → Nat) where
  /-- The last state space of the method. -/
  space : StateSpace fp
  /-- The verdicts in the order of the properties. -/
  results : List PropertyResult
  /-- The number of states found, those of calls included. -/
  effort : Nat
  /-- The number of contracts recorded. -/
  contracts : Nat

/-- Whether all properties hold. -/
def Report.allSatisfied {fp : State → Nat} (r : Report fp) : Bool :=
  r.results.all (·.verdict.isSatisfied)

/-- How a generation stands. -/
inductive Status where
  | idle
  | completed
  | aborted
  | failed
  deriving DecidableEq, Inhabited

/-- How a generation ended. -/
def Status.of {α : Type} : Except GenerationError α → Status
  | .ok _ => .completed
  | .error (.aborted _) => .aborted
  | .error _ => .failed

namespace Engine

/-- A session of an engine before its first run. -/
def session (E : Engine) : Session :=
  { limits := E.settings.limits }

/-- Begin a new run. -/
def restart : Run Unit :=
  modify Session.restart

/-- Generate by the given search; the effort goes on counting. -/
def search (E : Engine) (steps : Nat) (method : String) (heaps : List Heap) (S : Search) :
    Run (E.Space × Option Verdict) :=
  E.generateWith (E.invoke steps) steps method heaps S

/-- The state space of a method from the given heaps. -/
def generate (E : Engine) (steps : Nat) (method : String) (heaps : List Heap) : Run E.Space := do
  restart
  return (← E.search steps method heaps .depthFirst).1

/-- Check a property while states are generated. -/
def checkOnTheFly (E : Engine) (steps : Nat) (labels : Labelling) (method : String)
    (heaps : List Heap) (p : Code.Property) : Run (E.Space × PropertyResult) := do
  let (sp, verdict?) ← E.search steps method heaps (.onTheFly p.formula labels)
  return (sp, .of sp p.name (verdict?.getD .satisfied))

/-- Check a property on a finished state space. -/
def checkOffline {fp : State → Nat} (labels : Labelling) (sp : StateSpace fp)
    (p : Code.Property) : PropertyResult :=
  .of sp p.name (sp.check labels p.formula)

/-- Check properties of a method from the given heaps. On the fly, every property has a generation
of its own, which goes only as far as the verdict needs. -/
def verify (E : Engine) (steps : Nat) (labels : Labelling) (method : String) (heaps : List Heap)
    (properties : List Code.Property) : Run (Report E.fingerprint) := do
  restart
  let wanted := if E.settings.checking then properties else []
  let (sp, results) ←
    if E.settings.onTheFly && !wanted.isEmpty then do
      let outcomes ← wanted.mapM (E.checkOnTheFly steps labels method heaps)
      pure ((outcomes.getLast?.map Prod.fst).getD {}, outcomes.map Prod.snd)
    else do
      let (sp, _) ← E.search steps method heaps .depthFirst
      pure (sp, wanted.map (checkOffline labels sp))
  let s ← get
  return ⟨sp, results, s.effort, s.contracts.size⟩

end Engine

end ShapeCheck
