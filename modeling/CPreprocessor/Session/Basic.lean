import CPreprocessor.File.Tree
import CPreprocessor.Session.Run

/-!
# Sessions

A session starts with the predefined macros and those of its configuration. It then preprocesses
sources, each of which begins with the macros that the one before it left.
-/

namespace CPreprocessor.Session

/-- The text that defines the macros of the configuration goes by this name. -/
def configurationName : String := "<command line>"

/-- Text that nobody gave a name goes by this one. -/
def inputName : String := "<input>"

/-- Preprocesses text that does not come from a file. -/
def preprocessBytes (session : Session) (name : String) (source : Bytes) :
    SessionM (List OutputLine) :=
  session.runSource session.config.maximumDepth { name } source

/-- Preprocesses a file. -/
def preprocessFile (session : Session) (path : Path) : SessionM (List OutputLine) := do
  let (file, source) ← SessionM.readFile session.files path
  session.runSource session.config.maximumDepth { file with directory := path.parent } source

/-- Starts the session by defining and undefining the chosen macros. -/
def start (session : Session) : SessionM Unit :=
  discard (session.preprocessBytes configurationName (Bytes.ofString session.config.directives))

/-- Preprocesses some text in a session of its own. -/
def preprocess (files : FileSystem) (source : Bytes) : Except Fault (List OutputLine) :=
  let session : Session := { files }
  ((do session.start; session.preprocessBytes inputName source : SessionM _).run.run {}).1

end CPreprocessor.Session
