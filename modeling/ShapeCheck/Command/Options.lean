import ShapeCheck.Engine.Session

/-!
# Command lines

There are two commands: `parse` shows the declarations of a program, and `check` analyses its
methods. A long option is written `--name value` or `--name=value`, a short one `-n value`,
`-nvalue` or `-n=value`; short flags may be run together.
-/

namespace ShapeCheck

/-- An argument, told apart by its form. -/
inductive Argument where
  | flag (name : String)
  | value (name text : String)
  | file (text : String)
  deriving DecidableEq, Inhabited

/-- The options that a command knows. -/
structure OptionNames where
  /-- The options without a value. -/
  flags : List String
  /-- The options with a value. -/
  valued : List String
  /-- The one-letter forms. -/
  short : List (Char × String)

namespace OptionNames

/-- The options of `parse`. -/
def parse : OptionNames where
  flags := ["statements", "verbose"]
  valued := []
  short := [('v', "verbose")]

/-- The options of `check`. -/
def check : OptionNames where
  flags := ["no-model-check", "offline", "no-gc", "aggressive", "verbose", "incremental",
    "progress"]
  valued := ["method", "property", "max-states", "max-time", "memory-limit", "min-depth", "skip",
    "threads", "contracts-out"]
  short := [('m', "method"), ('p', "property"), ('v', "verbose")]

/-- A run of short options. Returns the flags, and the valued option at the end with its value if the
run holds it. -/
def readShort? (names : OptionNames) :
    List Char → Option (List Argument × Option (String × Option String))
  | [] => some ([], none)
  | c :: cs => do
    let name ← names.short.lookup c
    if name ∈ names.flags then
      let (args, last?) ← readShort? names cs
      return (.flag name :: args, last?)
    else
      let text? := match cs with
        | [] => none
        | '=' :: cs => some (String.ofList cs)
        | cs => some (String.ofList cs)
      return ([], some (name, text?))

/-- A long option, and its value if it is written together with it. -/
def splitLong (cs : List Char) : String × Option String :=
  match cs.span (· ≠ '=') with
  | (name, '=' :: text) => (String.ofList name, some (String.ofList text))
  | (name, _) => (String.ofList name, none)

/-- A valued option whose value may be the next argument. -/
def withValue? (name : String) (text? : Option String) (rest : List String) :
    Option (Argument × List String) :=
  match text?, rest with
  | some text, rest => some (.value name text, rest)
  | none, text :: rest => some (.value name text, rest)
  | none, [] => none

/-- Read the first argument. Returns what it holds and the arguments that are left. -/
def readFirst? (names : OptionNames) (arg : String) (rest : List String) :
    Option (List Argument × List String) :=
  match arg.toList with
  | ['-', '-'] => some (rest.map .file, [])
  | '-' :: '-' :: cs =>
    let (name, text?) := splitLong cs
    if name ∈ names.flags ∧ text? = none then some ([.flag name], rest)
    else if name ∈ names.valued then do
      let (a, rest) ← withValue? name text? rest
      return ([a], rest)
    else none
  | '-' :: c :: cs => do
    match ← names.readShort? (c :: cs) with
    | (args, none) => return (args, rest)
    | (args, some (name, text?)) =>
      let (a, rest) ← withValue? name text? rest
      return (args ++ [a], rest)
  | _ => some ([.file arg], rest)

/-- Read an argument list. Every step takes at least one argument. -/
def readAll? (names : OptionNames) : (steps : Nat) → List String → Option (List Argument)
  | _, [] => some []
  | 0, _ :: _ => none
  | steps + 1, arg :: rest => do
    let (args, rest) ← names.readFirst? arg rest
    return args ++ (← readAll? names steps rest)

end OptionNames

/-- The options of an analysis. -/
structure CheckOptions where
  /-- The methods to analyse; none are named for a choice by default. -/
  methods : List String := []
  /-- The properties to check; none are named for all of them. -/
  properties : List String := []
  /-- The bound on states; zero is no bound. -/
  maxStates : Nat := 0
  /-- The bound on seconds; zero is no bound. -/
  maxSeconds : Nat := 0
  /-- The bound on megabytes; zero is no bound. -/
  maxMegabytes : Nat := 0
  /-- How far from a variable nodes stay concrete. -/
  minDepth : Nat := 0
  /-- Whether properties are left unchecked. -/
  noCheck : Bool := false
  /-- Whether properties are checked on the finished state space. -/
  offline : Bool := false
  /-- Whether garbage is kept. -/
  keepGarbage : Bool := false
  /-- The methods whose calls do nothing. -/
  skipped : List String := []
  /-- Whether contracts start from the most general shape. -/
  generalize : Bool := false
  /-- The number of threads; zero is any number. -/
  threads : Nat := 0
  /-- Whether contracts are kept between runs. -/
  incremental : Bool := false
  /-- A file to write the contracts to. -/
  contractsOut? : Option String := none
  deriving DecidableEq, Inhabited

namespace CheckOptions

/-- Set a flag. Being verbose and showing progress change nothing in the result. -/
def setFlag (o : CheckOptions) : String → CheckOptions
  | "no-model-check" => { o with noCheck := true }
  | "offline" => { o with offline := true }
  | "no-gc" => { o with keepGarbage := true }
  | "aggressive" => { o with generalize := true }
  | "incremental" => { o with incremental := true }
  | _ => o

/-- Set an option with a value. -/
def setValue? (o : CheckOptions) (name text : String) : Option CheckOptions :=
  let number? := Text.readIndex? text.toList
  match name with
  | "method" => some { o with methods := o.methods ++ [text] }
  | "property" => some { o with properties := o.properties ++ [text] }
  | "skip" => some { o with skipped := o.skipped ++ [text] }
  | "contracts-out" => some { o with contractsOut? := some text }
  | "max-states" => number?.map fun n => { o with maxStates := n }
  | "max-time" => number?.map fun n => { o with maxSeconds := n }
  | "memory-limit" => number?.map fun n => { o with maxMegabytes := n }
  | "min-depth" => number?.map fun n => { o with minDepth := n }
  | "threads" => number?.map fun n => { o with threads := n }
  | _ => none

/-- The options of an argument list. -/
def ofArguments? (args : List Argument) : Option CheckOptions :=
  args.foldlM (fun o arg =>
    match arg with
    | .flag name => some (o.setFlag name)
    | .value name text => o.setValue? name text
    | .file _ => some o) {}

/-- The abstraction that the options ask for. -/
def abstraction (o : CheckOptions) : Abstraction :=
  { depth := o.minDepth }

/-- The settings that the options ask for. -/
def settings (o : CheckOptions) : Settings where
  maxStates := o.maxStates
  maxSeconds := o.maxSeconds
  maxMegabytes := o.maxMegabytes
  generalize := o.generalize
  checking := !o.noCheck
  onTheFly := !o.offline
  pruning := !o.keepGarbage
  skipped := o.skipped

/-- The settings that shape contracts, by name. -/
def cacheSettings (o : CheckOptions) : List (String × String) :=
  [("min_depth", o.minDepth.repr), ("aggressive", toString o.generalize),
    ("gc", toString !o.keepGarbage), ("skip", ",".intercalate (sortBy compare o.skipped))]

end CheckOptions

/-- What the program is asked to do. -/
inductive Command where
  /-- Show the declarations of a program. -/
  | parse (file : String) (statements verbose : Bool)
  /-- Analyse the methods of a program. -/
  | check (file : String) (options : CheckOptions)
  deriving DecidableEq, Inhabited

namespace Command

/-- The only file among arguments. -/
def onlyFile? (args : List Argument) : Option String :=
  match args.filterMap (fun | .file text => some text | _ => none) with
  | [file] => some file
  | _ => none

/-- The command of an argument list. -/
def ofArgs? : List String → Option Command
  | "parse" :: rest => do
    let args ← OptionNames.parse.readAll? rest.length rest
    return .parse (← onlyFile? args) (.flag "statements" ∈ args) (.flag "verbose" ∈ args)
  | "check" :: rest => do
    let args ← OptionNames.check.readAll? rest.length rest
    return .check (← onlyFile? args) (← CheckOptions.ofArguments? args)
  | _ => none

end Command

end ShapeCheck
