/-! Readers take characters off the head of a text, or fail and take none. -/
namespace ScopeBlocks

abbrev Reader := StateT (List Char) Option

namespace Reader

variable {α : Type}

def char (p : Char → Bool) : Reader Char := fun s =>
  match s with
  | c :: rest => if p c then some (c, rest) else none
  | [] => none

def literal (word : String) : Reader Unit := fun s =>
  if word.toList.isPrefixOf s then some ((), s.drop word.toList.length) else none

def takeWhile (p : Char → Bool) : Reader (List Char) := fun s => some (s.takeWhile p, s.dropWhile p)

def ended : Reader Unit := fun s => if s.isEmpty then some ((), s) else none

/-- What a reader yields as often as it succeeds; the last time it may take nothing. -/
def manyFrom (r : Reader α) (s : List Char) : List α × List Char :=
  match r s with
  | none => ([], s)
  | some (a, rest) =>
    if rest.length < s.length then
      let (more, rest) := manyFrom r rest
      (a :: more, rest)
    else ([a], rest)
termination_by s.length

def many (r : Reader α) : Reader (List α) := fun s => some (manyFrom r s)

def separated (r : Reader α) (mark : Reader Unit) : Reader (List α) := do
  let first ← r
  return first :: (← many do mark; r)

/-- What a reader that must take a whole text yields. -/
def readAll? (r : Reader α) (s : List Char) : Option α :=
  match r s with
  | some (a, []) => some a
  | _ => none

end Reader

end ScopeBlocks
