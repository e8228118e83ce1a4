import ScopeBlocks.Cli.Compile
import ScopeBlocks.Cli.Run

/-! The command line: one word says whether a workspace file is compiled, run or stepped. -/
open ScopeBlocks

namespace ScopeBlocks.Main

def fault : IO.Error → FileFault
  | .noFileOrDirectory .. => .missing
  | .inappropriateType .. => .isFolder
  | e => .other (toString e)

def fileSystem : FileSystem IO where
  read path := do
    match ← (IO.FS.readBinFile path).toBaseIO with
    | .ok bytes => return .ok bytes
    | .error e => return .error (fault e)
  write path text := do
    match ← (IO.FS.writeFile path text).toBaseIO with
    | .ok () => return .ok ()
    | .error e => return .error (fault e)

def writeOne (o : Cli.Output) : IO Unit := do
  let stream ← match o.stream with
    | .out => IO.getStdout
    | .err => IO.getStderr
  stream.putStr o.text
  stream.flush

def showAll (outputs : List Cli.Output) : IO Unit := outputs.forM writeOne

def report (r : Cli.Report) : IO UInt32 := do
  showAll r.outputs
  return UInt32.ofNat r.code

def readLine? : IO (Option String) := do
  let line ← (← IO.getStdin).getLine
  return if line.isEmpty then none else (Cli.Drive.lines line.toList).head?

abbrev Drive := Cli.Drive Prepared

/-- Takes a turn of a drive, and takes it again with another line of input as long as it asks for one. -/
partial def attempt (d : Drive) (shown : Nat) (turn : Cli.Turn) : IO Drive := do
  let (after, outputs) := d.take Prepared.service turn
  match d.starvedAt? after with
  | none =>
    showAll (outputs.drop shown)
    return after
  | some questions =>
    showAll ((questions.drop shown).map fun q => Cli.err (q.message ++ " "))
    match ← readLine? with
    | some line => attempt (d.supply line) questions.length turn
    | none =>
      showAll (outputs.drop questions.length)
      return after

partial def follow (d : Drive) : IO UInt32 := do
  match d.next? with
  | none => return UInt32.ofNat d.code
  | some (.pass duration) =>
    IO.sleep (UInt32.ofNat duration)
    follow (← attempt d 0 (.pass duration))
  | some .command =>
    let line? ← if d.stepping && d.prompter.answers.isEmpty then readLine? else pure none
    follow (← attempt ((line?.map d.supply).getD d) 0 .command)
  | some turn => follow (← attempt d 0 turn)

def run (o : Cli.RunOptions) : IO UInt32 := do
  match ← Cli.load fileSystem o with
  | .error f => report f.report
  | .ok (settings, w) =>
    if o.offline then
      showAll (Cli.Drive.greeting o.stepping)
      follow (.new settings w o.stepping [] Cli.offline)
    else report Cli.noInstrument.report

def usage : Cli.Report :=
  ⟨[Cli.err "usage: compile FILE [-o OUT] [--list-marks] | [--offline] [-c FILE] run|step FILE\n"], 2⟩

end ScopeBlocks.Main

def main (arguments : List String) : IO UInt32 := do
  match arguments with
  | "compile" :: rest =>
    match Cli.CompileOptions.ofArguments? rest with
    | some o => Main.report (← Cli.compile Main.fileSystem o)
    | none => Main.report Main.usage
  | arguments =>
    match Cli.RunOptions.ofArguments? arguments with
    | some o => Main.run o
    | none => Main.report Main.usage
