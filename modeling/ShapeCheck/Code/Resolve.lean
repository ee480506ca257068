import ShapeCheck.Source.Parse
import ShapeCheck.Source.Text
import ShapeCheck.Code.Program

/-!
# Resolving names

A program as written becomes a program ready to run: labels become lines, calls are checked against
the methods there are, and initial heaps are built. Falling off the end of a body returns.
-/

namespace ShapeCheck.Code

open Source (Span Ident)

/-- A name that does not resolve, or is given twice. -/
inductive ResolveError where
  | duplicateMethod (name : String) (span : Span)
  | duplicateProperty (name : String) (span : Span)
  | duplicateLabel (label : String) (span : Span)
  | unknownLabel (label : String) (span : Span)
  | unknownMethod (name : String) (span : Span)
  | arityMismatch (method : String) (expected found : Nat) (span : Span)
  | unboundAlias (name : String) (span : Span)
  deriving DecidableEq, Inhabited

namespace ResolveError

/-- Where the error is. -/
def span : ResolveError → Span
  | duplicateMethod _ s | duplicateProperty _ s | duplicateLabel _ s | unknownLabel _ s
  | unknownMethod _ s | arityMismatch _ _ _ s | unboundAlias _ s => s

/-- The wording of an error. -/
def message : ResolveError → String
  | duplicateMethod name s => "duplicate method '" ++ name ++ "' at " ++ s.text
  | duplicateProperty name s => "duplicate property '" ++ name ++ "' at " ++ s.text
  | duplicateLabel label s => "duplicate label '" ++ label ++ "' at " ++ s.text
  | unknownLabel label s => "unknown label '" ++ label ++ "' at " ++ s.text
  | unknownMethod name s => "unknown method '" ++ name ++ "' at " ++ s.text
  | arityMismatch method expected found s =>
    "'" ++ method ++ "' expects " ++ expected.repr ++ " arguments, found " ++ found.repr ++
      " at " ++ s.text
  | unboundAlias name s =>
    "'" ++ name ++ "' is not bound earlier in this init block at " ++ s.text

end ResolveError

/-- The number of parameters of each method. -/
abbrev Signatures := SortedMap String Nat

/-- The lines that labels stand for. -/
abbrev Labels := SortedMap String Nat

/-- The methods with their numbers of parameters; no two share a name. -/
def signatures (methods : List Source.MethodDecl) : Except ResolveError Signatures :=
  methods.foldlM (fun sigs m =>
    if sigs.contains m.name.name then .error (.duplicateMethod m.name.name m.name.span)
    else .ok (sigs.insert m.name.name m.params.length)) ∅

/-- The labels of a method with their lines, in order of appearance. -/
def placedLabels (m : Source.MethodDecl) : List (Ident × Nat) :=
  m.body.zipIdx.flatMap (fun (stmt, line) => stmt.labels.map (·, line)) ++
    m.endLabels.map (·, m.body.length)

/-- The lines of the labels of a method; no two labels share a name. -/
def labelLines (m : Source.MethodDecl) : Except ResolveError Labels :=
  (placedLabels m).foldlM (fun labels (label, line) =>
    if labels.contains label.name then .error (.duplicateLabel label.name label.span)
    else .ok (labels.insert label.name line)) ∅

/-- The line of a label. -/
def Labels.line (labels : Labels) (label : Ident) : Except ResolveError Nat :=
  match labels.find? label.name with
  | some line => .ok line
  | none => .error (.unknownLabel label.name label.span)

/-- A call of a method that exists, with the right number of arguments. -/
def Signatures.call (sigs : Signatures) (c : Source.CallExpr) (result : Option Ident) :
    Except ResolveError Instruction :=
  match sigs.find? c.method.name with
  | none => .error (.unknownMethod c.method.name c.method.span)
  | some expected =>
    if expected = c.args.length then
      .ok (.call c.method.name (c.args.map Source.Operand.name?) (result.map Ident.name))
    else .error (.arityMismatch c.method.name expected c.args.length c.span)

/-- The guard of a condition. -/
def guardOf : Source.Condition → Guard
  | .any => .any
  | .compare lhs rhs equal => .compare lhs.name rhs.name? equal

/-- The instruction of a statement. -/
def instruction (sigs : Signatures) (labels : Labels) :
    Source.StmtKind → Except ResolveError Instruction
  | .assign x .null => .ok (.assignNull x.name)
  | .assign x .new => .ok (.assignNew x.name)
  | .assign x (.var y) => .ok (.assignVar x.name y.name)
  | .assign x (.load base sel) => .ok (.load x.name base.name sel.name)
  | .assign x (.call c) => sigs.call c (some x)
  | .store base sel value => .ok (.store base.name sel.name value.name?)
  | .call c => sigs.call c none
  | .branch cond target => (labels.line target).map (.branch (guardOf cond))
  | .goto target => (labels.line target).map .goto
  | .return value => .ok (.return (value.map Ident.name))
  | .skip => .ok .skip

/-- A method ready to run. After the last statement stands a return without a value. -/
def resolveMethod (sigs : Signatures) (m : Source.MethodDecl) : Except ResolveError Method := do
  let labels ← labelLines m
  let body ← m.body.zipIdx.mapM fun (stmt, line) => do
    return (⟨line, ← instruction sigs labels stmt.kind, stmt.span, stmt.kind.text⟩ : Statement)
  let last : Statement := ⟨m.body.length, .return none, m.span, "return"⟩
  return ⟨m.name.name, m.params.map Ident.name, body ++ [last], []⟩

/-- Bind one variable of an initial heap. -/
def bind (h : Heap) (b : Source.Binding) : Except ResolveError Heap :=
  match b.shape with
  | .null => .ok (h.setVar b.var.name Node.null)
  | .list n =>
    let (h', v) := h.addList n false
    .ok (h'.setVar b.var.name v)
  | .cycle n =>
    let (h', v) := h.addList n true
    .ok (h'.setVar b.var.name v)
  | .alias x =>
    match h.var? x.name with
    | some v => .ok (h.setVar b.var.name v)
    | none => .error (.unboundAlias x.name x.span)

/-- The heap of an initial declaration. -/
def initialHeap (d : Source.InitDecl) : Except ResolveError Heap :=
  d.bindings.foldlM bind Heap.empty

/-- A temporal formula, its propositions by their text. -/
def temporal : Source.Temporal → Ltl
  | .const true => .top
  | .const false => .bot
  | .atom p _ => .atom p.text
  | .not a => .not (temporal a)
  | .next a => .next (temporal a)
  | .always a => .always (temporal a)
  | .eventually a => .eventually (temporal a)
  | .and a b => .and (temporal a) (temporal b)
  | .or a b => .or (temporal a) (temporal b)
  | .implies a b => .implies (temporal a) (temporal b)
  | .until a b => .until (temporal a) (temporal b)
  | .release a b => .release (temporal a) (temporal b)

/-- Add a property or an initial heap to a program. -/
def declare (p : Program) : Source.Decl → Except ResolveError Program
  | .method _ => .ok p
  | .property d =>
    if p.properties.any (·.name = d.name.name) then
      .error (.duplicateProperty d.name.name d.name.span)
    else
      .ok { p with properties := p.properties ++ [⟨d.name.name, (temporal d.formula).normalize⟩] }
  | .init d => do
    let h ← initialHeap d
    match p.methods.find? d.method.name with
    | some m =>
      return { p with methods := p.methods.insert m.name { m with inits := m.inits ++ [h] } }
    | none => .error (.unknownMethod d.method.name d.method.span)

/-- A program ready to run. Methods are resolved first, then the other declarations in order. -/
def resolve (p : Source.Program) : Except ResolveError Program := do
  let sigs ← signatures p.methods
  let methods ← p.methods.mapM (resolveMethod sigs)
  p.decls.foldlM declare { methods := .ofList (methods.map fun m => (m.name, m)) }

/-- Why a text has no program. -/
inductive CompileError where
  | parse (error : Source.ParseError)
  | resolve (error : ResolveError)
  deriving DecidableEq, Inhabited

/-- Where the error is. -/
def CompileError.span : CompileError → Span
  | parse e => e.span
  | resolve e => e.span

/-- Read a program and resolve its names. -/
def compile (src : String) : Except CompileError Program := do
  let p ← (Source.parse src).mapError .parse
  (resolve p).mapError .resolve

end ShapeCheck.Code
