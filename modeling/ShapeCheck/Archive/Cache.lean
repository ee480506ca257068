import ShapeCheck.Archive.Codec
import ShapeCheck.Archive.Files
import ShapeCheck.Space.State

/-!
# The contract cache

Contracts that were found for a program are kept in a directory beside it, in a file named by the
hash of the program and of the settings that shape contracts. A file whose hash is another one, or
that cannot be read, counts as missing.
-/

namespace ShapeCheck.Cache

/-- The end of the name of every cache file. -/
def fileEnding : String := ".contracts.json"

/-- The name of the cache directory. -/
def directoryName : String := ".grasp_cache"

/-- The name of the cache file for a hash. -/
def fileName (hash : Nat) : String :=
  hexWord hash ++ fileEnding

/-- The cache directory beside a program. -/
def directory (program : Place) : Place :=
  program.parent ++ [directoryName]

/-- The cache file of a program for a hash. -/
def place (program : Place) (hash : Nat) : Place :=
  directory program ++ [fileName hash]

/-- The contents of a cache file. -/
def encode (hash : Nat) (store : ContractStore) : String :=
  (Json.obj [("hash", .nat hash), ("methods", store.toJson)]).text .pretty

/-- The hash and the contracts in a cache file. -/
def decode? (text : String) : Option (Nat × ContractStore) := do
  match ← (← Json.read? text).parts? ["hash", "methods"] with
  | [some hash, some methods] => return (← hash.below? Text.bound64, ← ContractStore.ofJson? methods)
  | _ => none

/-- The contracts that are kept for a hash. -/
def load? (fs : Files) (program : Place) (hash : Nat) : Option ContractStore := do
  let (found, store) ← decode? (← (fs.read (place program hash)).toOption)
  if found = hash then return store else none

/-- Write contracts to a given file. -/
def saveTo (fs : Files) (file : Place) (hash : Nat) (store : ContractStore) :
    Except FileError Files :=
  fs.write file (encode hash store)

/-- Keep contracts for a hash. -/
def save (fs : Files) (program : Place) (hash : Nat) (store : ContractStore) :
    Except FileError Files := do
  saveTo (← fs.makeDirectory (directory program)) (place program hash) hash store

/-- Whether a file name belongs to the cache for another hash. -/
def isStale (hash : Nat) (name : String) : Bool :=
  fileEnding.toList.isSuffixOf name.toList && name ≠ fileName hash

/-- Remove the cache files for other hashes. -/
def cleanup (fs : Files) (program : Place) (hash : Nat) : Files :=
  ((fs.list (directory program)).filter (isStale hash)).foldl
    (fun fs name => fs.remove (directory program ++ [name])) fs

end ShapeCheck.Cache
