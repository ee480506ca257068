import ShapeCheck.Heap.Text

/-!
# Program states

A state is a heap at a place in a method. A state whose heap was unfolded for the next statement is
marked, so that it never merges with an ordinary state.

Equal states have equal fingerprints. A fingerprint is a number that a table of states is indexed
by; different states may share one.
-/

namespace ShapeCheck

/-- A place in a method: a statement, or the end. -/
inductive Location where
  | line (index : Nat)
  | exit
  deriving DecidableEq, Inhabited

/-- The number of a statement, or the word for the end. -/
def Location.text : Location → String
  | .line i => i.repr
  | .exit => "exit"

/-- A heap at a place in a method. -/
structure State where
  heap : Heap
  location : Location
  /-- Whether the heap was unfolded for the statement at the place. -/
  unfolded : Bool := false
  deriving DecidableEq, Inhabited

namespace State

/-- Whether the method has returned. -/
def isExit (s : State) : Bool :=
  s.location = .exit

/-- The place, a star if the heap was unfolded, and the heap. -/
def text (s : State) : String :=
  "@" ++ s.location.text ++ (if s.unfolded then "*" else "") ++ " " ++ s.heap.text

/-- Mix a number into a running fingerprint, which stays below `2 ^ 31`. -/
def mix (seed n : Nat) : Nat :=
  (seed * 1000003 + n + 1) % 2147483647

/-- The numbers that make up a state, without names. -/
def digest (s : State) : List Nat :=
  (match s.location with
    | .line i => i + 1
    | .exit => 0) :: (if s.unfolded then 1 else 0) :: s.heap.size :: s.heap.vars.values ++
    s.heap.cells.flatMap (fun cell => cell.size :: cell.values) ++
    s.heap.summaries.flatMap Summary.ends

/-- A number by which states are looked up. -/
def fingerprint (s : State) : Nat :=
  s.digest.foldl mix 0

end State

/-- A 64-bit fingerprint as sixteen hexadecimal digits. -/
def hexWord (n : Nat) : String :=
  let digits := Nat.toDigits 16 n
  String.ofList (List.replicate (16 - digits.length) '0' ++ digits)

end ShapeCheck
