import ShapeCheck.Source.Span

/-!
# Programs as written

The declarations of a source text: methods made of labelled statements, temporal properties, and
initial heaps. Every part remembers where it stands in the text.
-/

namespace ShapeCheck.Source

/-- A name and its place. -/
structure Ident where
  name : String
  span : Span
  deriving DecidableEq, Inhabited

/-- A variable, or null. -/
inductive Operand where
  | null
  | var (x : Ident)
  deriving DecidableEq, Inhabited

/-- The name of an operand; null has none. -/
def Operand.name? : Operand → Option String
  | .null => none
  | .var x => some x.name

/-- A call with its arguments. -/
structure CallExpr where
  /-- The method that is called. -/
  method : Ident
  args : List Operand
  span : Span
  deriving DecidableEq, Inhabited

/-- The right side of an assignment to a variable. -/
inductive Rhs where
  | null
  | new
  | var (x : Ident)
  | load (base selector : Ident)
  | call (call : CallExpr)
  deriving DecidableEq, Inhabited

/-- The condition of a branch. -/
inductive Condition where
  /-- Either way. -/
  | any
  /-- Two values are equal, or they are not. -/
  | compare (lhs : Ident) (rhs : Operand) (equal : Bool)
  deriving DecidableEq, Inhabited

/-- What a statement does. -/
inductive StmtKind where
  | assign (target : Ident) (value : Rhs)
  | store (base selector : Ident) (value : Operand)
  | call (call : CallExpr)
  | branch (cond : Condition) (target : Ident)
  | goto (target : Ident)
  | return (value : Option Ident)
  | skip
  deriving DecidableEq, Inhabited

/-- A statement with the labels in front of it. -/
structure Stmt where
  labels : List Ident
  /-- What the statement does. -/
  kind : StmtKind
  /-- Where it stands, labels excluded. -/
  span : Span
  deriving DecidableEq, Inhabited

/-- A method. -/
structure MethodDecl where
  name : Ident
  params : List Ident
  body : List Stmt
  /-- The labels after the last statement. -/
  endLabels : List Ident
  span : Span
  deriving DecidableEq, Inhabited

/-- An atomic statement about a state. -/
inductive Proposition where
  /-- Two values are equal, or they are not; a missing name is null. -/
  | compare (lhs : String) (rhs : Option String) (equal : Bool)
  /-- A value is reached from a variable in one or more steps. -/
  | reach (source : String) (target : Option String)
  /-- The method has returned. -/
  | terminated
  deriving DecidableEq, Inhabited

/-- A temporal formula as written. -/
inductive Temporal where
  | const (value : Bool)
  | atom (p : Proposition) (span : Span)
  | not (a : Temporal)
  | next (a : Temporal)
  | always (a : Temporal)
  | eventually (a : Temporal)
  | and (a b : Temporal)
  | or (a b : Temporal)
  | implies (a b : Temporal)
  | until (a b : Temporal)
  | release (a b : Temporal)
  deriving DecidableEq, Inhabited

/-- A named temporal formula. -/
structure PropertyDecl where
  name : Ident
  formula : Temporal
  span : Span
  deriving DecidableEq, Inhabited

/-- The initial value of a variable. -/
inductive Shape where
  | null
  /-- A fresh list of some cells that ends in null. -/
  | list (length : Nat)
  /-- A fresh list of some cells that closes on itself. -/
  | cycle (length : Nat)
  /-- The value of an earlier variable. -/
  | alias (x : Ident)
  deriving DecidableEq, Inhabited

/-- A variable and its initial value. -/
structure Binding where
  var : Ident
  shape : Shape
  span : Span
  deriving DecidableEq, Inhabited

/-- An initial heap of a method. -/
structure InitDecl where
  method : Ident
  bindings : List Binding
  span : Span
  deriving DecidableEq, Inhabited

/-- A declaration. -/
inductive Decl where
  | method (d : MethodDecl)
  | property (d : PropertyDecl)
  | init (d : InitDecl)
  deriving DecidableEq, Inhabited

/-- A source text as a list of declarations. -/
structure Program where
  /-- The declarations in order. -/
  decls : List Decl
  /-- The place of the whole. -/
  span : Span
  deriving DecidableEq, Inhabited

namespace Program

/-- The methods in order. -/
def methods (p : Program) : List MethodDecl :=
  p.decls.filterMap fun
    | .method d => some d
    | _ => none

/-- The properties in order. -/
def properties (p : Program) : List PropertyDecl :=
  p.decls.filterMap fun
    | .property d => some d
    | _ => none

/-- The initial heaps in order. -/
def inits (p : Program) : List InitDecl :=
  p.decls.filterMap fun
    | .init d => some d
    | _ => none

end Program

end ShapeCheck.Source
