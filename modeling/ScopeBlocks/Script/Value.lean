import ScopeBlocks.Json.Basic

/-! The values of a running script: their text, their truth, their JSON form and the equality that
scripts test. A failed action is a value too; it counts as false and equals nothing. -/
namespace ScopeBlocks.Script

inductive Value where
  | null
  | bool (value : Bool)
  | number (value : Number)
  | string (value : String)
  | array (items : List Value)
  | object (fields : Dict Value)
  | error (message : String)
  deriving Repr, Inhabited

inductive Value.Kind where
  | null | bool | number | string | array | object | error
  deriving DecidableEq, Repr

namespace Value

def Kind.name : Kind → String
  | .null => "null"
  | .bool => "boolean"
  | .number => "number"
  | .string => "string"
  | .array => "array"
  | .object => "object"
  | .error => "error"

def kind : Value → Kind
  | .null => .null
  | .bool _ => .bool
  | .number _ => .number
  | .string _ => .string
  | .array _ => .array
  | .object _ => .object
  | .error _ => .error

/-- Failures, nulls, empty texts, zeros and not-a-number count as false. -/
def truthy : Value → Bool
  | .null | .error _ => false
  | .string s => !s.isEmpty
  | .number x => x.truthy
  | .bool b => b
  | .array _ | .object _ => true

def isNull : Value → Bool
  | .null => true
  | _ => false

def field? (name : String) : Value → Option Value
  | .object fields => fields.get? name
  | _ => none

mutual

/-- Numbers without a JSON form become null, and a failure an object that names it. -/
def toJson : Value → Json
  | .null => .null
  | .bool b => .bool b
  | .number x => .ofNumber x
  | .string s => .str s
  | .array items => .arr (toJsonItems items)
  | .object ⟨entries⟩ => .obj ⟨toJsonEntries entries⟩
  | .error message => .obj (.singleton "error" (.str message))

def toJsonItems : List Value → List Json
  | [] => []
  | v :: rest => toJson v :: toJsonItems rest

def toJsonEntries : List (String × Value) → List (String × Json)
  | [] => []
  | (k, v) :: rest => (k, toJson v) :: toJsonEntries rest

end

mutual

def ofJson : Json → Value
  | .null => .null
  | .bool b => .bool b
  | .int n => .number (.ofInt n)
  | .double x => .number x
  | .str s => .string s
  | .arr items => .array (ofJsonItems items)
  | .obj ⟨entries⟩ => .object ⟨ofJsonEntries entries⟩

def ofJsonItems : List Json → List Value
  | [] => []
  | j :: rest => ofJson j :: ofJsonItems rest

def ofJsonEntries : List (String × Json) → List (String × Value)
  | [] => []
  | (k, j) :: rest => (k, ofJson j) :: ofJsonEntries rest

end

mutual

/-- The text that printing shows: the items of an array joined by commas, an object as JSON. -/
def text : Value → String
  | .null => "null"
  | .string s => s
  | .number x => x.text
  | .bool b => if b then "true" else "false"
  | .array items => ",".intercalate (texts items)
  | .object fields => (toJson (.object fields)).text
  | .error message => "error: " ++ message

def texts : List Value → List String
  | [] => []
  | v :: rest => text v :: texts rest

end

mutual

/-- The equality of scripts: items one by one, numbers by their order; objects and failures equal
nothing, themselves included. -/
def equals : Value → Value → Bool
  | .null, .null => true
  | .bool a, .bool b => a == b
  | .number x, .number y => x.equals y
  | .string s, .string t => s == t
  | .array xs, .array ys => equalsItems xs ys
  | _, _ => false

def equalsItems : List Value → List Value → Bool
  | [], [] => true
  | x :: xs, y :: ys => equals x y && equalsItems xs ys
  | _, _ => false

end

end Value

end ScopeBlocks.Script
