import CPreprocessor.File.System

/-!
# Trees of files

A tree holds files and directories under a root. Paths that do not begin with a slash start from a
working directory of the tree. Every component of a path but the last has to be a directory, so a
file is not found by way of another file, not even by going back up from it.
-/

namespace CPreprocessor

/-- A file or a directory. -/
inductive FileNode
  | file (contents : Bytes)
  | directory
  deriving DecidableEq

/-- Files and directories, by the components of their canonical paths. -/
structure FileTree where
  nodes : List (List String × FileNode)
  /-- The components of the working directory. -/
  working : List String

namespace FileTree

/-- The tree that has nothing but its working directory. -/
def empty (working : List String) : FileTree := ⟨[], working⟩

/-- Whether something is above another node or is the node itself. -/
def isAbove (place other : List String) : Bool := place.isPrefixOf other

/-- What is at a place. The directories above the working directory and above any node exist. -/
def at? (tree : FileTree) (place : List String) : Option FileNode :=
  match tree.nodes.lookup place with
  | some node => some node
  | none =>
    if isAbove place tree.working || tree.nodes.any (isAbove place ·.1) then some .directory
    else none

/-- The place that a component leads to from another place. -/
def step (tree : FileTree) (place : List String) (component : String) :
    Except FileProblem (List String) :=
  match tree.at? place with
  | none => .error .notFound
  | some (.file _) => .error .notDirectory
  | some .directory =>
    if Path.isVoid component then .ok place
    else if component = ".." then .ok place.dropLast
    else
      let place := place ++ [component]
      if (tree.at? place).isSome then .ok place else .error .notFound

/-- The place that some components lead to from the beginning of a path. -/
def walk (tree : FileTree) (path : Path) (components : List String) :
    Except FileProblem (List String) :=
  components.foldlM tree.step (if path.isAbsolute then [] else tree.working)

/-- The place that a path leads to. -/
def place (tree : FileTree) (path : Path) : Except FileProblem (List String) :=
  if path = "" then .error .notFound else tree.walk path path.components

/-- The canonical path of a place. -/
def pathOf (place : List String) : Path := Path.ofComponents "" place

/-- The contents of the file at a place. -/
def contents (tree : FileTree) (place : List String) : Except FileProblem Bytes :=
  match tree.at? place with
  | none => .error .notFound
  | some .directory => .error .isDirectory
  | some (.file contents) => .ok contents

/-- Whether a path leads to a file of the tree. -/
def isFile (tree : FileTree) (path : Path) : Bool :=
  match tree.place path with
  | .error _ => false
  | .ok place =>
    match tree.at? place with
    | some (.file _) => true
    | _ => false

/-- The file system of a tree. -/
def fileSystem (tree : FileTree) : FileSystem where
  canonical path := pathOf <$> tree.place path
  isFile := tree.isFile
  read path := do tree.contents (← tree.place path)

/-- The tree with a node at a place, in place of what was there. -/
def put (tree : FileTree) (place : List String) (node : FileNode) : FileTree :=
  { tree with nodes := (place, node) :: tree.nodes.filter (·.1 ≠ place) }

/-- The tree with a node where a path leads without going back up. -/
def add (tree : FileTree) (path : Path) (node : FileNode) : FileTree :=
  let start := if path.isAbsolute then [] else tree.working
  tree.put (start ++ path.components.filter (!Path.isVoid ·)) node

/-- The tree after writing a file. The directory of the file has to exist, and a path that ends
like that of a directory is one. -/
def write (tree : FileTree) (path : Path) (contents : Bytes) : Except FileProblem FileTree := do
  if path = "" then throw .notFound
  match (path.components.reverse.dropWhile (· = "")) with
  | [] => throw .isDirectory
  | name :: above =>
    let directory ← tree.walk path above.reverse
    match tree.at? directory with
    | some .directory =>
      if path.endsWith "/" ∨ name = "." ∨ name = ".." ∨
          tree.at? (directory ++ [name]) = some .directory then
        throw .isDirectory
      return tree.put (directory ++ [name]) (.file contents)
    | _ => throw .notDirectory

end FileTree

end CPreprocessor
