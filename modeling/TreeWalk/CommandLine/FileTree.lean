namespace TreeWalk.CommandLine

inductive Unreadable where
  | missing
  | directory
  | notDirectory
  | nameTooLong
deriving DecidableEq, Repr

def Unreadable.text : Unreadable → String
  | missing => "No such file or directory"
  | directory => "Is a directory"
  | notDirectory => "Not a directory"
  | nameTooLong => "File name too long"

def maxName : Nat := 255

def maxPath : Nat := 4095

structure FileTree where
  files : List (List String × ByteArray) := []
  directories : List (List String) := []

namespace FileTree

def ofPaths (files : List (String × ByteArray)) (directories : List String) : FileTree :=
  ⟨files.map fun f ↦ (f.1.splitOn "/", f.2), directories.map (·.splitOn "/")⟩

def isDirectory (t : FileTree) (place : List String) : Bool :=
  place.isEmpty || t.directories.any place.isPrefixOf ||
    t.files.any fun f ↦ place.isPrefixOf f.1 && place.length < f.1.length

/-- A place on the way along a path: within the tree, or above it, where nothing is known by name. -/
inductive Place where
  | within (names : List String)
  | above
deriving DecidableEq, Repr

def step (t : FileTree) (place : Place) (name : String) : Except Unreadable Place :=
  match place with
  | .above =>
    if name = "" || name = "." || name = ".." then .ok .above
    else .error (if maxName < name.utf8ByteSize then .nameTooLong else .missing)
  | .within names =>
    if ¬ t.isDirectory names then .error .notDirectory
    else if name = "" || name = "." then .ok place
    else if name = ".." then .ok (if names.isEmpty then .above else .within names.dropLast)
    else if maxName < name.utf8ByteSize then .error .nameTooLong
    else
      let next := names ++ [name]
      if t.isDirectory next || (t.files.lookup next).isSome then .ok (.within next)
      else .error .missing

def read (t : FileTree) (path : String) : Except Unreadable ByteArray := do
  if maxPath < path.utf8ByteSize then throw .nameTooLong
  let start := if path.toList.head? = some '/' then Place.above else .within []
  match ← (path.splitOn "/").foldlM t.step start with
  | .above => throw .directory
  | .within names =>
    match t.files.lookup names with
    | some bytes => return bytes
    | none => throw .directory

end FileTree

end TreeWalk.CommandLine
