import ScopeBlocks.Script.Primitive

/-! Identifiers for the variables of a workspace and for the helpers of its loops. No two are the same
and none is a reserved word; a name that is taken gets the first free number, from 2 on. -/
namespace ScopeBlocks

/-- Identifiers given to variables, in order of request, and all that are taken. -/
structure Names where
  assigned : List (String × String)
  taken : List String
  deriving Repr

namespace Names

def empty : Names := ⟨[], []⟩

instance : Inhabited Names := ⟨empty⟩

def isIdentChar (c : Char) : Bool := c.isAlphanum || c == '_' || c == '$'

/-- A name with its other characters replaced; it is not empty and begins with no digit. -/
def sanitize (name : String) : String :=
  match name.toList.map fun c => if isIdentChar c then c else '_' with
  | [] => "unnamed"
  | c :: rest => if c.isDigit then String.ofList ("my_".toList ++ c :: rest)
    else String.ofList (c :: rest)

def isFree (n : Names) (ident : String) : Bool :=
  !Script.isReserved ident && !n.taken.contains ident

/-- The first free identifier of a base and a number, among as many as given. -/
def freeFrom (n : Names) (base : String) : Nat → Nat → String
  | 0, suffix => base ++ toString suffix
  | tries + 1, suffix =>
    let candidate := base ++ toString suffix
    if n.isFree candidate then candidate else freeFrom n base tries (suffix + 1)

/-- There are fewer words that block a candidate than candidates. -/
def tries (n : Names) : Nat :=
  n.taken.length + Script.Keyword.all.length + Script.Primitive.all.length + 1

def freshIdent (n : Names) (base : String) : String :=
  if n.isFree base then base else n.freeFrom base n.tries 2

def distinct (n : Names) (base : String) : String × Names :=
  let ident := n.freshIdent (sanitize base)
  (ident, { n with taken := ident :: n.taken })

/-- The identifier of a variable, a new one at the first request. -/
def identify (n : Names) (name : String) : String × Names :=
  match n.assigned.lookup name with
  | some ident => (ident, n)
  | none =>
    let (ident, n) := n.distinct name
    (ident, { n with assigned := n.assigned ++ [(name, ident)] })

/-- The identifier of a variable that has been requested before. -/
def identOf (n : Names) (name : String) : String := (n.identify name).1

def declared (n : Names) : List String := n.assigned.map Prod.snd

def ofVariables (names : List String) : Names :=
  names.foldl (fun n name => (n.identify name).2) empty

end Names

end ScopeBlocks
