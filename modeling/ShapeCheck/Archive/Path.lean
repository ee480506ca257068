import ShapeCheck.Archive.Files

/-!
# Written paths

A path is written as names between slashes. It is followed from the left, one name at a time: each
name but the last leads into a directory that has to be there, one dot stays in place, and two dots
go up. So a path through a missing directory leads nowhere, even if it goes up again.

A slash behind the last name asks for a directory. No file can be written to such a path.
-/

namespace ShapeCheck

/-- A path as it is written. -/
structure Path where
  text : String
  deriving DecidableEq, Inhabited

namespace Path

/-- The greatest number of bytes in a name. -/
def nameLimit : Nat := 255

/-- The greatest number of bytes in a path. -/
def textLimit : Nat := 4095

/-- The names in a path, one and two dots included. -/
def names (p : Path) : List String :=
  (p.text.splitOn "/").filter (· ≠ "")

/-- Where a path starts: at the root, or at the working directory. -/
def start (p : Path) : Place :=
  if p.text.toList.head? = some '/' then Place.root else []

/-- Whether a slash stands at the end. -/
def endsInSlash (p : Path) : Bool :=
  p.text.toList.getLast? = some '/'

/-- Whether a text can be a path at all. -/
def check (p : Path) : Except FileError Unit :=
  if '\x00' ∈ p.text.toList then .error .nulInName
  else if p.text.isEmpty then .error .notFound
  else if textLimit < p.text.utf8ByteSize then .error .nameTooLong
  else .ok ()

/-- The path to the directory that the last name stands in; it is empty for the place where the path
starts. -/
def parent (p : Path) : Path :=
  ⟨"/".intercalate (p.names.filter (· ≠ ".")).dropLast⟩

/-- Whether a name stands for a directory by its dots alone. -/
def isDots (name : String) : Bool :=
  name = "." || name = ".."

/-- The place that a name leads to from a directory. -/
def step (here : Place) (name : String) : Except FileError Place :=
  if name = "." then .ok here
  else if name = ".." then .ok here.up
  else if nameLimit < name.utf8ByteSize then .error .nameTooLong
  else .ok (here ++ [name])

end Path

namespace Files

/-- Follow a name into a directory. -/
def enter (fs : Files) (here : Place) (name : String) : Except FileError Place := do
  let there ← Path.step here name
  match fs.item? there with
  | some .directory => return there
  | some (.file _) => throw .notADirectory
  | none => throw .notFound

/-- The directory that the last name of a path is looked up in. -/
def walk (fs : Files) (p : Path) : Except FileError Place := do
  p.check
  p.names.dropLast.foldlM fs.enter p.start

/-- The place that a path to be read leads to. There need not be anything. -/
def locate (fs : Files) (p : Path) : Except FileError Place := do
  let here ← fs.walk p
  match p.names.getLast? with
  | none => return here
  | some name => if p.endsInSlash then fs.enter here name else Path.step here name

/-- The place of a file that is to be written along a path. -/
def target (fs : Files) (p : Path) : Except FileError Place := do
  let here ← fs.walk p
  match p.names.getLast? with
  | none => throw .isADirectory
  | some name =>
    if p.endsInSlash || Path.isDots name then throw .isADirectory else Path.step here name

/-- The text of the file that a path leads to. -/
def readPath (fs : Files) (p : Path) : Except FileError String := do
  fs.read (← fs.locate p)

/-- Write a file along a path. -/
def writePath (fs : Files) (p : Path) (text : String) : Except FileError Files := do
  fs.write (← fs.target p) text

/-- Make the directories along some names, as far as that is possible. -/
def makeWay (fs : Files) (here : Place) : List String → Files
  | [] => fs
  | name :: rest =>
    match Path.step here name with
    | .error _ => fs
    | .ok there =>
      match fs.item? there with
      | some .directory => makeWay fs there rest
      | some (.file _) => fs
      | none => makeWay ⟨fs.items.insert there .directory⟩ there rest

/-- Make the directories on the way to the last name of a path, as far as that is possible. -/
def makeParents (fs : Files) (p : Path) : Files :=
  match p.parent.check with
  | .ok () => fs.makeWay p.start p.parent.names
  | .error _ => fs

end Files

end ShapeCheck
