import ShapeCheck.Archive.Cache
import ShapeCheck.Archive.Hash
import ShapeCheck.Archive.Path
import ShapeCheck.Code.Proposition
import ShapeCheck.Command.Options
import ShapeCheck.Engine.Parallel
import ShapeCheck.Source.Outline

/-!
# Running commands

A command reads and writes files and prints lines. It ends with a verdict, or fails with a message;
what it printed before it failed stays.
-/

namespace ShapeCheck

/-- Why a command failed. -/
inductive Failure where
  | file (error : FileError)
  | compile (error : Code.CompileError)
  | generation (method : String) (error : GenerationError)
  | unknownMethod (name : String)
  | unknownProperty (name : String)
  | usage
  deriving DecidableEq, Inhabited

namespace Failure

/-- The name of the kind of failure, if it has one. -/
def code? : Failure → Option String
  | .compile (.parse _) => some "grasp::parse_error"
  | .compile (.resolve _) => some "grasp::lower_error"
  | .generation _ _ => some "grasp::generation_error"
  | _ => none

/-- The wording of a failure. -/
def message : Failure → String
  | .file e => "failed to read file: " ++ e.message
  | .compile (.parse e) => "parse error: " ++ e.message
  | .compile (.resolve e) => "lowering error: " ++ e.message
  | .generation method e => "generation error: " ++ method ++ ": " ++ e.message
  | .unknownMethod name => "unknown method '" ++ name ++ "'"
  | .unknownProperty name => "unknown property '" ++ name ++ "'"
  | .usage => "usage: parse FILE [OPTIONS] | check FILE [OPTIONS]"

end Failure

/-- What the machine adds to a run: its clock, and the order in which tasks that run at the same time
get at their shared contracts. -/
structure Machine where
  clock : Session → Reading := fun _ => {}
  schedule : List Turn := []

/-- How an analysis ended. -/
inductive Outcome where
  | ok
  | violation
  | aborted
  deriving DecidableEq, Inhabited

namespace Outcome

/-- The worse of two outcomes: a violation is worse than an abort. -/
def merge : Outcome → Outcome → Outcome
  | .violation, _ | _, .violation => .violation
  | .aborted, _ | _, .aborted => .aborted
  | .ok, .ok => .ok

/-- The exit code of an outcome. -/
def exitCode : Outcome → Nat
  | .ok => 0
  | .violation => 1
  | .aborted => 2

end Outcome

/-- What a command works on. -/
structure Console where
  files : Files
  /-- The lines printed so far. -/
  out : List String := []
  deriving DecidableEq

/-- A command that may fail; printed lines and files are kept. -/
abbrev Shell := ExceptT Failure (StateM Console)

namespace Shell

/-- Print lines. -/
def print (lines : List String) : Shell Unit :=
  modify fun c => { c with out := c.out ++ lines }

/-- Go on with the result of a step that may fail. -/
def attempt {ε α : Type} (failure : ε → Failure) : Except ε α → Shell α
  | .ok a => return a
  | .error e => throw (failure e)

/-- Read the file that a path leads to. Returns its place as well. -/
def readFile (file : String) : Shell (Place × String) := do
  let files := (← get).files
  let place ← attempt .file (files.locate ⟨file⟩)
  return (place, ← attempt .file (files.read place))

end Shell

open Shell

/-- The steps granted to an analysis, far more than any analysis can take. -/
def stepBudget : Nat := 1000000000000

/-! ### The parse command -/

/-- One line for a declaration. -/
def Source.Decl.summary : Source.Decl → String
  | .method d =>
    "    method " ++ d.name.name ++ "(" ++ ", ".intercalate (d.params.map Source.Ident.name) ++ ")"
  | .property d => "    property " ++ d.name.name
  | .init d => "    init " ++ d.method.name

/-- A line for each declaration, or the outline of the program. -/
def Source.Program.listing (p : Source.Program) (verbose : Bool) : List String :=
  if verbose then p.outline
  else (p.decls.length.repr ++ " declarations") :: p.decls.map Source.Decl.summary

/-- The statements of a method. -/
def Code.Method.listing (m : Code.Method) : List String :=
  ["", "method " ++ m.name ++ ":"] ++ m.statements.map ("    " ++ ·.text)

/-- Show the declarations of a program. -/
def runParse (file : String) (statements verbose : Bool) : Shell Unit := do
  let (_, source) ← readFile file
  let program ← attempt (.compile ∘ .parse) (Source.parse source)
  print (program.listing verbose)
  if statements then
    let code ← attempt (.compile ∘ .resolve) (Code.resolve program)
    print (code.methods.values.flatMap Code.Method.listing)
  print ["parse: ok"]

/-! ### The check command -/

/-- The methods to analyse: those that are named, or else those with initial heaps, or else all. -/
def targetMethods (p : Code.Program) (o : CheckOptions) : Except Failure (List String) :=
  if o.methods.isEmpty then
    let started := (p.methods.values.filter (!·.inits.isEmpty)).map Code.Method.name
    .ok (if started.isEmpty then p.methods.keys else started)
  else
    o.methods.mapM fun name =>
      if (p.method? name).isSome then .ok name else .error (.unknownMethod name)

/-- The properties to check: those that are named, or else all. -/
def targetProperties (p : Code.Program) (o : CheckOptions) :
    Except Failure (List Code.Property) :=
  if o.properties.isEmpty then .ok p.properties
  else
    o.properties.mapM fun name =>
      match p.properties.find? (·.name = name) with
      | some property => .ok property
      | none => .error (.unknownProperty name)

/-- A state of a trace with the statement that it runs. -/
def traceLine (m? : Option Code.Method) (i : Nat) (s : State) : String :=
  let stmt? := m?.bind (Engine.statementAt? · s)
  "    " ++ i.repr ++ ": " ++ s.text ++
    (match stmt? with
      | some stmt => "    [" ++ stmt.text ++ "]"
      | none => "")

/-- The lines on a property. -/
def PropertyResult.lines (m? : Option Code.Method) (r : PropertyResult) : List String :=
  match r.verdict with
  | .satisfied => ["  Property " ++ r.name ++ ": satisfied"]
  | .violated _ =>
    ["  Property " ++ r.name ++ ": VIOLATED",
      "  Trace (" ++ r.trace.length.repr ++ " states):"] ++
      r.trace.zipIdx.flatMap fun (s, i) =>
        (if r.cycleStart? = some i then ["    -- cycle --"] else []) ++ [traceLine m? i s]

/-- The lines on the size of a state space. -/
def sizeLines {fp : State → Nat} (sp : StateSpace fp) : List String :=
  ["  States: " ++ sp.size.repr, "  Final states: " ++ sp.finals.length.repr]

/-- The lines on a verification. -/
def Report.lines {fp : State → Nat} (m? : Option Code.Method) (r : Report fp) : List String :=
  sizeLines r.space ++ ["  States generated (with calls): " ++ r.effort.repr] ++
    r.results.flatMap (·.lines m?) ++ (if r.allSatisfied then ["  Result: OK"] else [])

/-- The outcome of a verification. -/
def Report.outcome {fp : State → Nat} (r : Report fp) : Outcome :=
  if r.allSatisfied then .ok else .violation

/-- The line on an analysis that was stopped. -/
def abortLine (reason : LimitReached) : String :=
  "  Result: ABORTED (" ++ reason.message ++ ")"

/-- The lines at the head of a method. -/
def methodHead (method : String) : List String :=
  ["", "Method: " ++ method]

/-- Verify one method after the other. -/
def verifyEach (E : Engine) (properties : List Code.Property) :
    Session → List String → Shell (Outcome × Session)
  | s, [] => return (.ok, s)
  | s, method :: rest => do
    print (methodHead method)
    let (result, s) := (E.verify stepBudget propositionLabels method
      (E.program.initialHeaps method) properties).run.run s
    let outcome ← match result with
      | .ok report =>
        print (report.lines (E.program.method? method))
        pure report.outcome
      | .error (.aborted reason) =>
        print [abortLine reason, "  States generated: " ++ s.effort.repr]
        pure .aborted
      | .error e => throw (.generation method e)
    let (others, s) ← verifyEach E properties s rest
    return (outcome.merge others, s)

/-- Print the outcome of the generation of one method. -/
def reportGenerated {fp : State → Nat} :
    String × Except GenerationError (StateSpace fp) → Shell Outcome
  | (method, result) => do
    print (methodHead method)
    match result with
    | .ok sp =>
      print ("  Result: OK" :: sizeLines sp)
      return .ok
    | .error (.aborted reason) =>
      print [abortLine reason]
      return .aborted
    | .error e => throw (.generation method e)

/-- Generate the state spaces of all methods, then report on them. -/
def generateEach (E : Engine) (schedule : List Turn) (s : Session) (methods : List String) :
    Shell (Outcome × Session) := do
  let (results, s) := (E.generateAll stepBudget schedule
    (methods.map fun m => (m, E.program.initialHeaps m))).run s
  let outcomes ← results.mapM reportGenerated
  return (outcomes.foldl Outcome.merge .ok, s)

/-- Analyse the methods of a program. Returns the outcome and the contracts. -/
def analyse (p : Code.Program) (o : CheckOptions) (machine : Machine) (store : ContractStore) :
    Shell (Outcome × ContractStore) := do
  let methods ← attempt id (targetMethods p o)
  let properties ← attempt id (targetProperties p o)
  let E : Engine :=
    { program := p, abstraction := o.abstraction, settings := o.settings, clock := machine.clock }
  let s := { E.session with contracts := store }
  let checking := E.settings.checking && !properties.isEmpty
  let (outcome, s) ←
    if !checking && 1 < methods.length && o.threads ≠ 1 then generateEach E machine.schedule s methods
    else verifyEach E properties s methods
  print ["", "Contracts: " ++ s.contracts.size.repr]
  return (outcome, s.contracts)

/-- Keep the contracts for the next run; a cache that cannot be written is left alone. -/
def keepContracts (program : Place) (hash : Nat) (store : ContractStore) : Shell Unit :=
  modify fun c =>
    let saved := match Cache.save c.files program hash store with
      | .ok files => files
      | .error _ => c.files
    { c with files := Cache.cleanup saved program hash }

/-- Write the contracts to a file. -/
def exportContracts (target : String) (hash : Nat) (store : ContractStore) : Shell Unit := do
  let files := (← get).files
  let place ← attempt .file (files.target ⟨target⟩)
  let files ← attempt .file (Cache.saveTo files place hash store)
  modify fun c => { c with files }
  print ["contracts written to " ++ target]

/-- Analyse a program. -/
def runCheck (file : String) (o : CheckOptions) (machine : Machine) : Shell Outcome := do
  let (place, source) ← readFile file
  let program ← attempt .compile (Code.compile source)
  let hash := programHash source o.cacheSettings
  let files := (← get).files
  let kept? := if o.incremental then Cache.load? files place hash else none
  let (outcome, store) ← analyse program o machine (kept?.getD {})
  if o.incremental then
    keepContracts place hash store
  if let some target := o.contractsOut? then
    exportContracts target hash store
  return outcome

/-- What a command leaves behind. -/
structure CommandResult where
  exitCode : Nat
  out : List String
  /-- Why it failed, if it did. -/
  failure? : Option Failure
  files : Files

namespace Command

/-- The command as a computation. -/
def shell (machine : Machine) : Command → Shell Outcome
  | parse file statements verbose => do
    runParse file statements verbose
    return .ok
  | check file options => runCheck file options machine

/-- Run the command of an argument list. -/
def run (args : List String) (machine : Machine) (files : Files) : CommandResult :=
  match ofArgs? args with
  | none => ⟨2, [], some .usage, files⟩
  | some command =>
    match ((command.shell machine).run.run { files }) with
    | (.ok outcome, c) => ⟨outcome.exitCode, c.out, none, c.files⟩
    | (.error failure, c) => ⟨1, c.out, some failure, c.files⟩

end Command

end ShapeCheck
