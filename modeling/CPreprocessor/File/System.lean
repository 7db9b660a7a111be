import CPreprocessor.Diagnostic
import CPreprocessor.File.Path

/-!
# File systems

A file system gives every path a canonical one, by which files are told apart, and every canonical
path its contents. Whether there is a file at a path can be asked without reading it, so a file that
is there may still be one that cannot be read.
-/

namespace CPreprocessor

/-- What there is to know about files. -/
structure FileSystem where
  /-- The canonical path of a file or directory. -/
  canonical : Path → Except FileProblem Path
  /-- Whether a path leads to a regular file, be it readable or not. -/
  isFile : Path → Bool
  /-- The contents of the file with a canonical path. -/
  read : Path → Except FileProblem Bytes

namespace FileSystem

/-- The canonical path and the contents of a file. -/
def load (fs : FileSystem) (path : Path) : Except FileProblem (Path × Bytes) := do
  let canonical ← fs.canonical path
  return (canonical, ← fs.read canonical)

end FileSystem

end CPreprocessor
