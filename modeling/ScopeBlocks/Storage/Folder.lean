import ScopeBlocks.Dict
import ScopeBlocks.Storage.Basic
import ScopeBlocks.Text.Split

/-! A folder of files without folders in it, as a place to read from and write to by relative paths. -/
namespace ScopeBlocks

abbrev Folder := Dict ByteArray

namespace Folder

/-- The longest name of a file, in bytes. -/
def nameLimit : Nat := 255

/-- The name of the file at the end of a path; none for the folder itself. -/
def nameAt? (d : Folder) : List (List Char) → Except FileFault (Option String)
  | [] => .ok none
  | p :: rest =>
    if p = [] ∨ p = ['.'] then nameAt? d rest
    else if (String.ofList p).utf8ByteSize > nameLimit then .error .nameTooLong
    else if rest = [] then .ok (some (String.ofList p))
    else if d.contains (String.ofList p) then .error .throughFile
    else if rest.all (·.isEmpty) then .error .isFolder
    else .error .missing

def locate (d : Folder) (path : String) : Except FileFault (Option String) :=
  if path.toList.contains '\x00' then .error .zeroInName
  else
    match path.toList with
    | [] | '/' :: _ => .error .missing
    | cs => nameAt? d (Text.pieces '/' cs)

def read (d : Folder) (path : String) : Except FileFault ByteArray :=
  match d.locate path with
  | .error .isFolder => .error .missing
  | .error e => .error e
  | .ok none => .error .isFolder
  | .ok (some name) =>
    match d.get? name with
    | some bytes => .ok bytes
    | none => .error .missing

def write (d : Folder) (path text : String) : Except FileFault Folder :=
  match d.locate path with
  | .error e => .error e
  | .ok none => .error .isFolder
  | .ok (some name) => .ok (d.insert name text.toUTF8)

/-- The folder as a state that reading leaves as it is and writing changes. -/
def fileSystem : FileSystem (StateM Folder) where
  read path := do return (← get).read path
  write path text := do
    match (← get).write path text with
    | .ok d => set d; return .ok ()
    | .error e => return .error e

end Folder

end ScopeBlocks
