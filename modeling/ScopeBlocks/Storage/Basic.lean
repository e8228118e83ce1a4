/-! Files as programs meet them: content is read and written by path, and each may fail. -/
namespace ScopeBlocks

inductive FileFault where
  | missing
  | throughFile
  | isFolder
  | nameTooLong
  | zeroInName
  | notText
  | other (reason : String)
  deriving DecidableEq, Repr

namespace FileFault

def message : FileFault → String
  | .missing => "No such file or directory (os error 2)"
  | .throughFile => "Not a directory (os error 20)"
  | .isFolder => "Is a directory (os error 21)"
  | .nameTooLong => "File name too long (os error 36)"
  | .zeroInName => "file name contained an unexpected NUL byte"
  | .notText => "stream did not contain valid UTF-8"
  | .other reason => reason

/-- Whether the fault means that nothing is at the path. -/
def isAbsence : FileFault → Bool
  | .missing | .throughFile | .nameTooLong | .zeroInName => true
  | .isFolder | .notText | .other _ => false

end FileFault

/-- What reading and writing by path do in a monad. -/
structure FileSystem (m : Type → Type) where
  read : String → m (Except FileFault ByteArray)
  write : String → String → m (Except FileFault Unit)

namespace FileSystem

variable {m : Type → Type} [Monad m]

def readText (files : FileSystem m) (path : String) : m (Except FileFault String) := do
  match ← files.read path with
  | .error e => return .error e
  | .ok bytes =>
    match String.fromUTF8? bytes with
    | some text => return .ok text
    | none => return .error .notText

end FileSystem

end ScopeBlocks
