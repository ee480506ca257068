import ShapeCheck.Collection.SortedMap

/-!
# Files

A tree of directories and text files, each at its place. A place is a list of names from the working
directory, which is always there. The directories above it are places too: they are reached by two
dots, and the root of the file system by a slash alone.
-/

namespace ShapeCheck

/-- The names on the way from the working directory. -/
abbrev Place := List String

namespace Place

/-- The root of the file system. -/
def root : Place := ["/"]

/-- A place as it is written. -/
def text (p : Place) : String :=
  "/".intercalate p

/-- The directory that a place lies in. -/
def parent (p : Place) : Place :=
  p.dropLast

/-- The directories on the way to a place, the outermost first. -/
def above (p : Place) : List Place :=
  (List.range p.length).map p.take

/-- Whether a place is the working directory, one of those above it, or the root. -/
def isFixed (p : Place) : Bool :=
  p.all (· = "..") || p = root

/-- The directory above a directory; the root is above itself. -/
def up (p : Place) : Place :=
  if p = root then root
  else if p.isFixed then p ++ [".."]
  else p.parent

end Place

/-- What stands at a place. -/
inductive FileItem where
  | file (text : String)
  | directory
  deriving DecidableEq, Inhabited

/-- Why a file cannot be read or written. -/
inductive FileError where
  | notFound
  | notADirectory
  | isADirectory
  | exists
  | nameTooLong
  | nulInName
  deriving DecidableEq, Inhabited

/-- The wording of a file error. -/
def FileError.message : FileError → String
  | .notFound => "No such file or directory (os error 2)"
  | .notADirectory => "Not a directory (os error 20)"
  | .isADirectory => "Is a directory (os error 21)"
  | .exists => "File exists (os error 17)"
  | .nameTooLong => "File name too long (os error 36)"
  | .nulInName => "file name contained an unexpected NUL byte"

/-- A tree of files; the places that are always there are not listed. -/
structure Files where
  /-- What stands at each place. -/
  items : SortedMap Place FileItem := ∅
  deriving DecidableEq

namespace Files

instance : Inhabited Files := ⟨{}⟩

/-- What stands at a place. -/
def item? (fs : Files) (p : Place) : Option FileItem :=
  if p.isFixed then some .directory else fs.items.find? p

/-- Whether the directories on the way to a place are there. -/
def checkParents (fs : Files) (p : Place) : Except FileError Unit :=
  p.above.forM fun q =>
    match fs.item? q with
    | some .directory => .ok ()
    | some (.file _) => .error .notADirectory
    | none => .error .notFound

/-- The text of a file. -/
def read (fs : Files) (p : Place) : Except FileError String := do
  fs.checkParents p
  match fs.item? p with
  | some (.file text) => return text
  | some .directory => throw .isADirectory
  | none => throw .notFound

/-- Write a file into a directory that is there. -/
def write (fs : Files) (p : Place) (text : String) : Except FileError Files := do
  fs.checkParents p
  match fs.item? p with
  | some .directory => throw .isADirectory
  | _ => return ⟨fs.items.insert p (.file text)⟩

/-- Make a directory unless there is one. -/
def ensureDirectory (fs : Files) (p : Place) : Except FileError Files :=
  match fs.item? p with
  | some .directory => .ok fs
  | some (.file _) => .error .exists
  | none => .ok ⟨fs.items.insert p .directory⟩

/-- Make a directory and those on the way to it. -/
def makeDirectory (fs : Files) (p : Place) : Except FileError Files :=
  (p.above ++ [p]).foldlM ensureDirectory fs

/-- Remove a file; a directory stays. -/
def remove (fs : Files) (p : Place) : Files :=
  match fs.item? p with
  | some (.file _) => ⟨fs.items.erase p⟩
  | _ => fs

/-- The names in a directory, in order. -/
def list (fs : Files) (p : Place) : List String :=
  fs.items.keys.filterMap fun q =>
    if Place.parent q = p ∧ q ≠ [] then q.getLast? else none

end Files

end ShapeCheck
