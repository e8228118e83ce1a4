/-! Arguments of a command line: options, some with a value, may stand anywhere between the other words. -/
namespace ScopeBlocks.Cli

/-- An option by its long name and, if it has one, its letter. -/
structure OptionName where
  long : String
  letter : Option Char
  takesValue : Bool
  deriving DecidableEq, Repr

structure Arguments where
  options : List (String × String)
  words : List String
  deriving Repr

namespace Arguments

def empty : Arguments := ⟨[], []⟩

def withOption (a : Arguments) (name value : String) : Arguments :=
  { a with options := (name, value) :: a.options }

def withWord (a : Arguments) (word : String) : Arguments := { a with words := word :: a.words }

def has (a : Arguments) (name : String) : Bool := (a.options.lookup name).isSome

def value? (a : Arguments) (name : String) : Option String := a.options.lookup name

/-- What an argument is when it comes next: a word, options with their values, or an option whose value
is the argument after it. -/
inductive Piece where
  | word
  | options (found : List (String × String))
  | valueNext (found : List (String × String)) (name : String)
  deriving Repr

def longPiece? (names : List OptionName) (body : List Char) : Option Piece := do
  let key := String.ofList (body.takeWhile (· != '='))
  let o ← names.find? (·.long == key)
  match body.dropWhile (· != '='), o.takesValue with
  | _ :: value, true => some (.options [(o.long, String.ofList value)])
  | [], true => some (.valueNext [] o.long)
  | [], false => some (.options [(o.long, "")])
  | _ :: _, false => none

/-- Letters in a row: the first that takes a value has the rest of the argument as its value. -/
def letters? (names : List OptionName) : List Char → Option Piece
  | [] => some (.options [])
  | c :: rest => do
    let o ← names.find? (·.letter == some c)
    if o.takesValue then
      match rest with
      | [] => some (.valueNext [] o.long)
      | '=' :: value => some (.options [(o.long, String.ofList value)])
      | value => some (.options [(o.long, String.ofList value)])
    else
      match ← letters? names rest with
      | .options found => some (.options ((o.long, "") :: found))
      | .valueNext found name => some (.valueNext ((o.long, "") :: found) name)
      | .word => none

def piece? (names : List OptionName) (argument : String) : Option Piece :=
  match argument.toList with
  | '-' :: '-' :: body => longPiece? names body
  | ['-'] => some .word
  | '-' :: letters => letters? names letters
  | _ => some .word

def addOptions (a : Arguments) (found : List (String × String)) : Arguments :=
  found.foldl (fun a o => a.withOption o.1 o.2) a

def readFrom (names : List OptionName) (a : Arguments) : List String → Option Arguments
  | [] => some { a with words := a.words.reverse }
  | argument :: rest =>
    if argument = "--" then some { a with words := a.words.reverse ++ rest }
    else
      match piece? names argument, rest with
      | some .word, rest => readFrom names (a.withWord argument) rest
      | some (.options found), rest => readFrom names (a.addOptions found) rest
      | some (.valueNext found name), value :: rest =>
        readFrom names ((a.addOptions found).withOption name value) rest
      | some (.valueNext ..), [] | none, _ => none

/-- The options and words among arguments; none if there is an unknown option or a value is missing.
After two dashes all are words. -/
def read? (names : List OptionName) (arguments : List String) : Option Arguments :=
  readFrom names empty arguments

end Arguments

end ScopeBlocks.Cli
