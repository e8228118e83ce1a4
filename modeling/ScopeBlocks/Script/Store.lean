import ScopeBlocks.Script.Error

/-! The variables of a running script, in the order of their names. -/
namespace ScopeBlocks.Script

abbrev Store := Dict Value

namespace Store

/-- A declaration binds its name anew, whatever it held before. -/
def define (store : Store) (name : String) (value : Value) : Store := store.insert name value

/-- An assignment needs a declared name. -/
def assign (store : Store) (name : String) (value : Value) : Except Fault Store :=
  match store.get? name with
  | some _ => .ok (store.insert name value)
  | none => .error (.undeclared name)

end Store

end ScopeBlocks.Script
