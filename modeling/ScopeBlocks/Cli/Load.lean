import ScopeBlocks.Cli.Arguments
import ScopeBlocks.Cli.Report
import ScopeBlocks.Device.Settings
import ScopeBlocks.Workspace.Build

/-! What a run needs before it can begin: its options, its settings and a workspace that compiles. -/
namespace ScopeBlocks.Cli

structure RunOptions where
  input : String
  stepping : Bool
  config : Option String
  baseUrl : Option String
  offline : Bool
  unboundedPolling : Bool
  deriving DecidableEq, Repr

namespace RunOptions

def names : List OptionName :=
  [⟨"config", some 'c', true⟩, ⟨"base-url", none, true⟩, ⟨"offline", none, false⟩,
    ⟨"unbounded-polling", none, false⟩, ⟨"verbose", some 'v', false⟩]

def ofArguments? (arguments : List String) : Option RunOptions := do
  let a ← Arguments.read? names arguments
  let options (input : String) (stepping : Bool) : RunOptions :=
    ⟨input, stepping, a.value? "config", a.value? "base-url", a.has "offline",
      a.has "unbounded-polling"⟩
  match a.words with
  | ["run", input] => some (options input false)
  | ["step", input] => some (options input true)
  | _ => none

def adjust (o : RunOptions) (s : Settings) : Settings :=
  { s with
    baseUrl := o.baseUrl.getD s.baseUrl
    maxPolls := if o.unboundedPolling then none else s.maxPolls }

end RunOptions

variable {m : Type → Type} [Monad m]

def readFile (files : FileSystem m) (path : String) : m (Except Failure String) := do
  return (← files.readText path).mapError fun fault => ⟨"reading " ++ path, fault.message⟩

def settingsIn (path document : String) : Except Failure Settings :=
  match Settings.ofToml? document with
  | some s => .ok s
  | none => .error ⟨"in " ++ path, Settings.invalidMessage⟩

def loadSettings (files : FileSystem m) (o : RunOptions) : m (Except Failure Settings) := do
  match o.config with
  | none => return .ok (o.adjust {})
  | some path =>
    return ((← readFile files path).bind (settingsIn path)).map o.adjust

/-- The workspace in a document; it must compile. -/
def workspaceIn (path document : String) : Except Failure Workspace :=
  match Workspace.ofXml document with
  | .error e => .error ⟨"loading " ++ path, e.message⟩
  | .ok w =>
    match w.compile with
    | .error e => .error ⟨"compiling " ++ path, e.message⟩
    | .ok _ => .ok w

def loadWorkspace (files : FileSystem m) (path : String) : m (Except Failure Workspace) := do
  return (← readFile files path).bind (workspaceIn path)

/-- The settings and, if they are right, the workspace. -/
def load (files : FileSystem m) (o : RunOptions) : m (Except Failure (Settings × Workspace)) := do
  match ← loadSettings files o with
  | .error e => return .error e
  | .ok settings => return (← loadWorkspace files o.input).map (settings, ·)

end ScopeBlocks.Cli
