import ShapeCheck.Source.Span
import ShapeCheck.Shape.Unfold
import ShapeCheck.Call.Names
import ShapeCheck.Space.State

/-!
# Statements

A statement is an instruction at a line of a method. Run on a heap it moves to further lines, asks
for a call, or fails because it goes through null. A variable that names nothing reads as null, and
a selector that is not there leads to null.
-/

namespace ShapeCheck.Code

/-- The condition of a branch. -/
inductive Guard where
  /-- Either way. -/
  | any
  /-- Two values are equal, or they are not; a missing name is null. -/
  | compare (lhs : String) (rhs : Option String) (equal : Bool)
  deriving DecidableEq, Inhabited

/-- What a statement does; labels are lines, and a missing operand is null. -/
inductive Instruction where
  | assignNull (target : String)
  | assignNew (target : String)
  | assignVar (target source : String)
  | load (target base selector : String)
  | store (base selector : String) (value : Option String)
  | call (method : String) (args : List (Option String)) (result : Option String)
  | branch (guard : Guard) (target : Nat)
  | goto (target : Nat)
  | return (value : Option String)
  | skip
  deriving DecidableEq, Inhabited

/-- An instruction at a line of a method. -/
structure Statement where
  line : Nat
  /-- What the statement does. -/
  instruction : Instruction
  /-- Where it stands in the text. -/
  span : Source.Span
  /-- How it is written. -/
  source : String
  deriving DecidableEq, Inhabited

/-- A call that a statement asks for. -/
structure CallSite where
  /-- The method that is called. -/
  method : String
  /-- The values of the arguments. -/
  args : List Node
  /-- The variable that takes the result. -/
  result : Option String
  deriving DecidableEq, Inhabited

/-- A dereference of null. -/
structure NullDereference where
  /-- The line of the statement. -/
  line : Nat
  /-- How the statement is written. -/
  source : String
  /-- Where it stands in the text. -/
  span : Source.Span
  deriving DecidableEq, Inhabited

/-- What happened, without the line. -/
def NullDereference.message (e : NullDereference) : String :=
  "null dereference in `" ++ e.source ++ "` at " ++ e.span.text

/-- One step of a statement. -/
inductive Step where
  /-- The places and heaps that follow. -/
  | moves (next : List (Location × Heap))
  /-- The heaps that follow are those the call returns. -/
  | call (site : CallSite)
  /-- The statement goes through null. -/
  | fault
  deriving DecidableEq, Inhabited

/-- Whether a guard lets the branch be taken, and whether it lets it be passed by. -/
def Guard.outcomes (h : Heap) : Guard → Bool × Bool
  | .any => (true, true)
  | .compare lhs rhs equal =>
    let holds := (h.valueOf (some lhs) == h.valueOf rhs) == equal
    (holds, !holds)

namespace Statement

/-- The line and the written form. -/
def text (s : Statement) : String :=
  s.line.repr ++ ": " ++ s.source

/-- The place after the statement. -/
def next (s : Statement) : Location :=
  .line (s.line + 1)

/-- The variable and the selector that the statement goes through. -/
def accessPoint? (s : Statement) : Option AccessPoint :=
  match s.instruction with
  | .load _ base selector | .store base selector _ => some ⟨base, selector⟩
  | _ => none

/-- The access points of the statement; there is at most one. -/
def accessPoints (s : Statement) : List AccessPoint :=
  s.accessPoint?.toList

/-- Whether a summary may hide the selector that the statement goes through. -/
def needsUnfolding (s : Statement) (h : Heap) : Bool :=
  s.accessPoints.any fun p =>
    let v := h.valueOf (some p.base)
    v ≠ Node.null && (h.selector? v p.selector).isNone && h.startsSummary v

/-- The dereference of null that the statement is at fault with. -/
def nullDereference (s : Statement) : NullDereference :=
  ⟨s.line, s.source, s.span⟩

/-- Go on after the statement, provided that a base is not null. -/
def through (s : Statement) (h : Heap) (base : String) (f : Node → Heap) : Step :=
  let v := h.valueOf (some base)
  if v = Node.null then .fault else .moves [(s.next, f v)]

/-- Let a selector of a node lead to a value; a null selector is removed. -/
def stored (h : Heap) (v : Node) (selector : String) (value : Node) : Heap :=
  if value = Node.null then h.dropSelector v selector else h.setSelector v selector value

/-- One step of the statement on a heap. A branch that may be taken comes before passing it by. -/
def step (s : Statement) (h : Heap) : Step :=
  match s.instruction with
  | .assignNull x => .moves [(s.next, h.setVar x Node.null)]
  | .assignNew x => .moves [(s.next, h.grow.setVar x h.size)]
  | .assignVar x y => .moves [(s.next, h.setVar x (h.valueOf (some y)))]
  | .load x base sel =>
    s.through h base fun v => h.setVar x ((h.selector? v sel).getD Node.null)
  | .store base sel value => s.through h base fun v => stored h v sel (h.valueOf value)
  | .call method args result => .call ⟨method, args.map h.valueOf, result⟩
  | .branch guard target =>
    let (taken, passed) := guard.outcomes h
    .moves ((if taken then [(.line target, h)] else []) ++ (if passed then [(s.next, h)] else []))
  | .goto target => .moves [(.line target, h)]
  | .return value? =>
    .moves [(.exit, match value? with
      | some x => h.setVar Call.returnVar (h.valueOf (some x))
      | none => h)]
  | .skip => .moves [(s.next, h)]

end Statement

end ShapeCheck.Code
