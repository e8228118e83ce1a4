import ScopeBlocks.Text.Split

/-! What a command writes and how it ends. -/
namespace ScopeBlocks.Cli

inductive Stream where
  | out
  | err
  deriving DecidableEq, Repr

structure Output where
  stream : Stream
  text : String
  deriving DecidableEq, Repr

def out (text : String) : Output := ⟨.out, text⟩

def err (text : String) : Output := ⟨.err, text⟩

structure Report where
  outputs : List Output
  code : Nat
  deriving DecidableEq, Repr

def Report.text (r : Report) (stream : Stream) : String :=
  String.join ((r.outputs.filter (·.stream = stream)).map Output.text)

structure Failure where
  context : String
  cause : String
  deriving DecidableEq, Repr

/-- Text whose lines are set in by four blanks. -/
def indented (text : String) : String :=
  String.ofList (text.toList.foldr (fun c s => if c = '\n' then c :: "    ".toList ++ s else c :: s) [] |>
    ("    ".toList ++ ·))

def Failure.text (f : Failure) : String :=
  "Error: " ++ f.context ++ "\n\nCaused by:\n" ++ indented f.cause ++ "\n"

end ScopeBlocks.Cli
