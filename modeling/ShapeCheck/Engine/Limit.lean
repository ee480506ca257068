/-!
# Limits of effort

Abstraction does not make every state space finite, so the effort of an analysis can be bounded by
the number of states, by time and by memory. The analysis asks before it expands a state. Memory is
looked at only from time to time, since looking is not free.
-/

namespace ShapeCheck

/-- Why an analysis was stopped. -/
inductive LimitReached where
  | states (limit : Nat)
  | time (seconds : Nat)
  | memory (limit used : Nat)
  deriving DecidableEq, Inhabited

/-- The wording of the reason. -/
def LimitReached.message : LimitReached → String
  | .states n => "state limit of " ++ n.repr ++ " reached"
  | .time n => "time limit of " ++ n.repr ++ "s reached"
  | .memory n used =>
    "memory limit of " ++ n.repr ++ " MB reached (" ++ used.repr ++ " MB in use)"

/-- What the outside world shows of a run: its duration so far and its memory. -/
structure Reading where
  /-- The seconds since the start of the run. -/
  seconds : Nat := 0
  /-- The megabytes in use. -/
  megabytes : Nat := 0
  deriving DecidableEq, Inhabited

/-- A bound on the effort. -/
inductive Limit where
  | states (limit : Nat)
  | time (seconds : Nat)
  /-- Memory in megabytes, last looked at when there were `sampledAt` states. -/
  | memory (limit : Nat) (sampledAt : Nat)
  deriving DecidableEq, Inhabited

namespace Limit

/-- The number of new states between two looks at the memory. -/
def memorySampleInterval : Nat := 1024

/-- Whether the memory has to be looked at again. A number of states that went down belongs to a new
run. -/
def isDue (sampledAt states : Nat) : Bool :=
  states < sampledAt || memorySampleInterval ≤ states - sampledAt

/-- Check a bound. Returns the bound as it is to be used next, and the reason to stop. -/
def check (reading : Reading) (states : Nat) : Limit → Limit × Option LimitReached
  | .states n => (.states n, if n ≤ states then some (.states n) else none)
  | .time n => (.time n, if n ≤ reading.seconds then some (.time n) else none)
  | .memory n sampledAt =>
    if isDue sampledAt states then
      (.memory n states,
        if n < reading.megabytes then some (.memory n reading.megabytes) else none)
    else (.memory n sampledAt, none)

end Limit

/-- Several bounds. -/
abbrev Limits := List Limit

namespace Limits

/-- The bounds on states, seconds and megabytes; zero is no bound. -/
def ofNumbers (states seconds megabytes : Nat) : Limits :=
  (if 0 < states then [.states states] else []) ++
    (if 0 < seconds then [.time seconds] else []) ++
    (if 0 < megabytes then [.memory megabytes 0] else [])

/-- Check the bounds in order, up to the first that is reached. -/
def check (reading : Reading) (states : Nat) : Limits → Limits × Option LimitReached
  | [] => ([], none)
  | limit :: rest =>
    match limit.check reading states with
    | (limit, some reason) => (limit :: rest, some reason)
    | (limit, none) =>
      let (rest, reason?) := check reading states rest
      (limit :: rest, reason?)

end Limits

end ShapeCheck
