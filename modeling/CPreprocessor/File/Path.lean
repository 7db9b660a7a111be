/-!
# Paths

A path is a text in which slashes separate components. An absolute path begins with a slash. Empty
components and components that are a single dot do not count, except a dot at the beginning.
-/

namespace CPreprocessor

abbrev Path := String

namespace Path

/-- The components of a path; the first one of an absolute path is empty. -/
def components (path : Path) : List String := path.splitOn "/"

def isAbsolute (path : Path) : Bool := path.startsWith "/"

/-- A path as it is seen from a directory. -/
def join (directory path : Path) : Path :=
  if path.isAbsolute ∨ directory = "" then path
  else if directory.endsWith "/" then directory ++ path
  else directory ++ "/" ++ path

/-- Whether a component does not count. -/
def isVoid (component : String) : Bool := component = "" || component = "."

/-- The components without those at the end that do not count. -/
def dropVoid (components : List String) : List String :=
  (components.reverse.dropWhile isVoid).reverse

/-- The path of the given components. -/
def ofComponents (first : String) (rest : List String) : Path :=
  if first = "" ∧ rest = [] then "/" else "/".intercalate (first :: rest)

/-- The path without its last component. The root and the empty path have none. -/
def parent (path : Path) : Option Path :=
  match path.components with
  | [] => none
  | first :: rest =>
    match dropVoid rest with
    | [] => if first = "" then none else some ""
    | last :: more => some (ofComponents first (dropVoid (last :: more).dropLast))

end Path

end CPreprocessor
