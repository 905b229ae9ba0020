import WordLang.Sink

/-!
# File trees

Directories and files below a root, seen from a working directory. A name has `/` between its
components; one that begins with a slash leads from the root, any other from the working directory.
-/
namespace WordLang

/-- Components of a path from the root. -/
abbrev Path := List String

inductive Node where
  | file (contents : List UInt8)
  | directory
  deriving DecidableEq, Repr

structure FileTree where
  nodes : List (Path × Node) := []
  workingDirectory : Path := []
  deriving DecidableEq, Repr

namespace FileTree

/-- Bytes that a name may have. -/
def nameLimit : Nat := 4095

/-- Bytes that one component of a name may have. -/
def componentLimit : Nat := 255

/-- What stands at a path. -/
def node? (t : FileTree) (path : Path) : Option Node :=
  if path.isEmpty then some .directory
  else (t.nodes.find? (·.1 == path)).map (·.2)

def isTooLong (component : String) : Bool := componentLimit < component.utf8ByteSize

/-- The path that components lead to from the directory `start`. All but the last must be
directories. Above the root is the root again. -/
def walk (t : FileTree) (start : Path) : List String → Except OutputError Path
  | [] => .ok start
  | component :: rest =>
    if component = "" ∨ component = "." then t.walk start rest
    else if component = ".." then t.walk start.dropLast rest
    else
      let path := start ++ [component]
      if rest.isEmpty then .ok path
      else
        match t.node? path with
        | some .directory => t.walk path rest
        | some (.file _) => .error .notADirectory
        | none => .error (if isTooLong component then .nameTooLong else .noSuchFile)

/-- The pieces of a text between its slashes. -/
def pieces : List Char → List (List Char)
  | [] => [[]]
  | c :: cs =>
    if c = '/' then [] :: pieces cs
    else
      match pieces cs with
      | [] => [[c]]
      | piece :: rest => (c :: piece) :: rest

/-- The components of a name without the slashes at its end, and whether there were any. -/
def components (name : String) : List String × Bool :=
  match (pieces name.toList).reverse with
  | [] :: rest => ((rest.dropWhile List.isEmpty).reverse.map String.ofList, true)
  | all => (all.reverse.map String.ofList, false)

/-- The path that a name means, and whether it can only be a directory's. -/
def resolve (t : FileTree) (name : String) : Except OutputError (Path × Bool) := do
  if name.toList.contains '\x00' then throw .zeroInName
  if name = "" then throw .noSuchFile
  if nameLimit < name.utf8ByteSize then throw .nameTooLong
  let (parts, onlyDirectory) := components name
  let path ← t.walk (if name.toList.head? = some '/' then [] else t.workingDirectory) parts
  return (path, onlyDirectory)

/-- The contents of a file. -/
def read? (t : FileTree) (name : String) : Option (List UInt8) :=
  match t.resolve name with
  | .ok (path, false) =>
    match t.node? path with
    | some (.file contents) => some contents
    | _ => none
  | _ => none

/-- The path of a file that can be opened for writing. -/
def writable (t : FileTree) (name : String) : Except OutputError Path := do
  let (path, onlyDirectory) ← t.resolve name
  if onlyDirectory then throw .isADirectory
  match t.node? path with
  | some .directory => throw .isADirectory
  | some (.file _) => return path
  | none => if path.getLast?.any isTooLong then throw .nameTooLong else return path

/-- The tree with a file of the given contents at `path`. -/
def put (t : FileTree) (path : Path) (contents : List UInt8) : FileTree :=
  if t.nodes.any (·.1 == path) then
    { t with
      nodes := t.nodes.map fun entry =>
        if entry.1 == path then (path, .file contents) else entry }
  else { t with nodes := t.nodes ++ [(path, .file contents)] }

/-- The tree without the file at `path`. A directory stays. -/
def removeFile (t : FileTree) (path : Path) : FileTree :=
  match t.node? path with
  | some (.file _) => { t with nodes := t.nodes.filter (·.1 != path) }
  | _ => t

/-- The tree without the file of that name, if the name is one of a file. -/
def remove (t : FileTree) (name : String) : FileTree :=
  match t.resolve name with
  | .ok (path, false) => t.removeFile path
  | _ => t

end FileTree

end WordLang
