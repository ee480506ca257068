import ShapeCheck.Command.Run

/-!
# The program

The command is run on a copy of the files it can touch: the program, its contract cache, and the
file that contracts are written to. Afterwards the changes are carried out.
-/

namespace ShapeCheck.Main

/-- Copy what stands at a place. -/
def copyItem (fs : Files) (p : Place) : IO Files := do
  let real := (← IO.currentDir) / p.text
  if ← real.isDir then
    return ⟨fs.items.insert p .directory⟩
  else if ← real.pathExists then
    return ⟨fs.items.insert p (.file (← IO.FS.readFile real))⟩
  else return fs

/-- Copy what a path passes on its way. -/
def copyPath (fs : Files) (p : Path) : IO Files := do
  let (_, fs) ← p.names.foldlM (fun ((here, fs) : Place × Files) name => do
    match Path.step here name with
    | .ok there => return (there, ← copyItem fs there)
    | .error _ => return (here, fs)) (p.start, fs)
  return fs

/-- Copy a directory and the files in it. -/
def copyDirectory (fs : Files) (p : Place) : IO Files := do
  let real := (← IO.currentDir) / p.text
  let fs ← copyItem fs p
  if ← real.isDir then
    (← real.readDir).toList.foldlM (fun fs entry => copyItem fs (p ++ [entry.fileName])) fs
  else return fs

/-- Copy the files that a command can touch. -/
def copyFor : Command → IO Files
  | .parse file _ _ => copyPath {} ⟨file⟩
  | .check file options => do
    let fs ← copyPath {} ⟨file⟩
    let fs ← (options.contractsOut?.map Path.mk).toList.foldlM copyPath fs
    match fs.locate ⟨file⟩ with
    | .ok place => copyDirectory fs (Cache.directory place)
    | .error _ => return fs

/-- Carry out the changes between two copies. -/
def carryOut (before after : Files) : IO Unit := do
  let here ← IO.currentDir
  for (p, item) in after.items.toList do
    if before.items.find? p ≠ some item then
      match item with
      | .directory => IO.FS.createDirAll (here / p.text)
      | .file text => IO.FS.writeFile (here / p.text) text
  for p in before.items.keys do
    if (after.items.find? p).isNone then
      IO.FS.removeFile (here / p.text)

end ShapeCheck.Main

open ShapeCheck in
/-- Run a command line. -/
def main (args : List String) : IO UInt32 := do
  let before ← match Command.ofArgs? args with
    | some command => Main.copyFor command
    | none => pure {}
  let result := Command.run args {} before
  for line in result.out do
    IO.println line
  Main.carryOut before result.files
  if let some failure := result.failure? then
    IO.eprintln failure.message
  return result.exitCode.toUInt32
