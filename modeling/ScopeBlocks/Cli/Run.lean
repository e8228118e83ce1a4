import ScopeBlocks.Cli.Drive
import ScopeBlocks.Cli.Load

/-! The commands that run and step a workspace file. -/
namespace ScopeBlocks.Cli

def Failure.report (f : Failure) : Report := ⟨[err f.text], 1⟩

/-- Without a connection to an instrument there are only runs that are answered locally. -/
def noInstrument : Failure := ⟨"connecting to the instrument", "only --offline runs are possible"⟩

/-- A file run or stepped to its end with all of its input at hand. -/
def run {m : Type → Type} [Monad m] (files : FileSystem m) (o : RunOptions) (input : String) :
    m Report := do
  match ← load files o with
  | .error f => return f.report
  | .ok (settings, w) =>
    if o.offline then return Drive.run Prepared.service offline settings w o.stepping input else return noInstrument.report

end ScopeBlocks.Cli
