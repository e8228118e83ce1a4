import ScopeBlocks.Storage.Basic
import ScopeBlocks.Workspace.Code
import ScopeBlocks.Workspace.Import

/-! Workspace documents compiled from file to file. -/
namespace ScopeBlocks

inductive BuildError where
  | file (fault : FileFault)
  | absent (path : String)
  | document (cause : ImportError)
  | workspace (cause : CompileError)
  deriving Repr

def BuildError.message : BuildError → String
  | .file fault => "I/O error: " ++ fault.message
  | .absent path => "File not found: " ++ path
  | .document cause => cause.message
  | .workspace cause => cause.message

structure Build where
  workspace : Workspace
  compiled : Compiled

def Build.ofDocument (document : String) : Except BuildError Build := do
  let w ← (Workspace.ofXml document).mapError .document
  return ⟨w, ← w.compile.mapError .workspace⟩

/-- Compiles the document in a file and, given an output, writes the code there. -/
def Build.ofFile {m : Type → Type} [Monad m] (files : FileSystem m) (input : String)
    (output : Option String) : m (Except BuildError Build) := do
  match ← files.readText input with
  | .error e => return .error (if e.isAbsence then .absent input else .file e)
  | .ok document =>
    match ofDocument document, output with
    | .ok b, some path =>
      match ← files.write path b.compiled.code with
      | .ok () => return .ok b
      | .error e => return .error (.file e)
    | r, _ => return r

end ScopeBlocks
