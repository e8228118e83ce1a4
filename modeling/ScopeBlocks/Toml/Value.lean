import ScopeBlocks.Number.Basic

/-! Values of TOML documents, and how keys and headers put them into tables. A table remembers how it
came about, because that decides what may still be added to it. -/
namespace ScopeBlocks.Toml

inductive Origin where
  | header
  | implied
  | dotted
  | inline
  deriving DecidableEq, Repr

/-- The entries of a table stand in the order in which they were given; `tables` is an array of tables
made by headers, the last of which is still open. -/
inductive Value where
  | string (s : String)
  | integer (n : Int)
  | float (x : Number)
  | boolean (b : Bool)
  | moment (text : String)
  | array (items : List Value)
  | table (origin : Origin) (entries : List (String × Value))
  | tables (earlier : List (List (String × Value))) (last : List (String × Value))
  deriving Repr

abbrev Entries := List (String × Value)

/-- The value takes the place of the one with its key, or the last place. -/
def Entries.set (key : String) (v : Value) : Entries → Entries
  | [] => [(key, v)]
  | (k, w) :: rest => if k = key then (k, v) :: rest else (k, w) :: set key v rest

def Entries.add? (entries : Entries) (key : String) (v : Value) : Option Entries :=
  if (entries.lookup key).isSome then none else some (entries ++ [(key, v)])

/-- Whether a path may lead through a table: headers pass all but inline ones, dotted keys only those
that no header gave. -/
def Origin.passable (keyed : Bool) : Origin → Bool
  | .inline => false
  | .header => !keyed
  | .implied | .dotted => true

/-- A change to the table at a path, which comes about where it is missing. -/
def Entries.within (keyed : Bool) (change : Origin → Entries → Option Entries) :
    List String → Origin → Entries → Option Entries
  | [], origin, entries => change origin entries
  | key :: path, _, entries =>
    match entries.lookup key with
    | none => do
      let origin := if keyed then Origin.dotted else .implied
      return set key (.table origin (← within keyed change path origin [])) entries
    | some (.table origin inner) =>
      if origin.passable keyed then do
        return set key (.table origin (← within keyed change path origin inner)) entries
      else none
    | some (.tables earlier last) => do
      return set key (.tables earlier (← within keyed change path .header last)) entries
    | some _ => none

/-- A key with a dotted path before it, in a table. Of tables only those that dotted keys made take
such keys. -/
def Entries.assign (path : List String) (key : String) (v : Value) (origin : Origin)
    (entries : Entries) : Option Entries :=
  within true (fun o inner =>
    if (o = .dotted) ↔ path = [] then none else inner.add? key v) path origin entries

def Entries.openTable (path : List String) (key : String) (entries : Entries) : Option Entries :=
  within false (fun _ inner =>
    match inner.lookup key with
    | none => some (inner ++ [(key, .table .header [])])
    | some (.table .implied given) => some (set key (.table .header given) inner)
    | some _ => none) path .header entries

def Entries.openElement (path : List String) (key : String) (entries : Entries) : Option Entries :=
  within false (fun _ inner =>
    match inner.lookup key with
    | none => some (inner ++ [(key, .tables [] [])])
    | some (.tables earlier last) => some (set key (.tables (earlier ++ [last]) []) inner)
    | some _ => none) path .header entries

end ScopeBlocks.Toml
