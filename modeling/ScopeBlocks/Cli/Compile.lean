import ScopeBlocks.Cli.Arguments
import ScopeBlocks.Cli.Report
import ScopeBlocks.Workspace.Build

/-! The command that compiles a workspace file. The code goes to an output file or to the standard
output; the marked blocks can be listed beside it. -/
namespace ScopeBlocks.Cli

structure CompileOptions where
  input : String
  output : Option String
  listMarks : Bool
  deriving DecidableEq, Repr

namespace CompileOptions

def names : List OptionName :=
  [⟨"output", some 'o', true⟩, ⟨"verbose", some 'v', false⟩, ⟨"list-marks", none, false⟩]

def ofArguments? (arguments : List String) : Option CompileOptions := do
  let a ← Arguments.read? names arguments
  match a.words with
  | [input] => some ⟨input, a.value? "output", a.has "list-marks"⟩
  | _ => none

end CompileOptions

/-- The error of a build together with its cause; that of a fault of a file is the fault itself. -/
def buildErrorText (e : BuildError) : String :=
  match e with
  | .file fault => e.message ++ ": " ++ fault.message
  | e => e.message

def idWidth : Nat := 24

def padded (text : String) (width : Nat) : String :=
  text ++ String.ofList (List.replicate (width - text.length) ' ')

def markLine (w : Workspace) (id : String) : String :=
  "  " ++ padded id idWidth ++ " " ++ ((w.find? id).map Block.kind).getD "?" ++ "\n"

def markList (b : Build) : List Output :=
  err s!"Marked blocks ({b.compiled.ids.length}):\n" ::
    b.compiled.ids.map fun id => err (markLine b.workspace id)

def compileReport (o : CompileOptions) : Except BuildError Build → Report
  | .error e => ⟨[err s!"Compilation failed: compiling {o.input}: {buildErrorText e}\n"], 1⟩
  | .ok b =>
    ⟨(if o.output.isNone then [out b.compiled.code] else []) ++
      (if o.listMarks then markList b else []), 0⟩

def compile {m : Type → Type} [Monad m] (files : FileSystem m) (o : CompileOptions) : m Report := do
  return compileReport o (← Build.ofFile files o.input o.output)

end ScopeBlocks.Cli
