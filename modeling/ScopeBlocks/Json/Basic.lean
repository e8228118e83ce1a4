import ScopeBlocks.Dict
import ScopeBlocks.Number.Shortest

/-! JSON values and their compact text. Whole numbers are kept apart from binary64 numbers, so that
each is written in its own form. -/
namespace ScopeBlocks

inductive Json where
  | null
  | bool (value : Bool)
  | int (value : Int)
  | double (value : Number)
  | str (value : String)
  | arr (items : List Json)
  | obj (fields : Dict Json)
  deriving Repr, Inhabited

namespace Json

def get? (name : String) : Json → Option Json
  | .obj fields => fields.get? name
  | _ => none

def str? : Json → Option String
  | .str s => some s
  | _ => none

/-- An object of the given fields; of fields with one name the last counts. -/
def object (fields : List (String × Json)) : Json := .obj (.ofList fields)

/-- A number, or the null that stands for one without a JSON form. -/
def ofNumber (x : Number) : Json := if x.isFinite then .double x else .null

def hexDigit (n : Nat) : Char := Nat.digitChar (n % 16)

def escape (c : Char) : List Char :=
  match c with
  | '"' => ['\\', '"']
  | '\\' => ['\\', '\\']
  | '\x08' => ['\\', 'b']
  | '\x0c' => ['\\', 'f']
  | '\n' => ['\\', 'n']
  | '\r' => ['\\', 'r']
  | '\t' => ['\\', 't']
  | c =>
    if c.toNat < 0x20 then ['\\', 'u', '0', '0', hexDigit (c.toNat / 16), hexDigit c.toNat] else [c]

def quoted (s : String) : List Char := '"' :: s.toList.flatMap escape ++ ['"']

def pointed : List Char → List Char
  | [] => []
  | [c] => [c]
  | c :: rest => c :: '.' :: rest

/-- Shortest digits, between two equally near decimals the even one. They stand in full, with at
least one decimal, where the first digit's exponent lies from -5 to 15, and with a signed exponent
elsewhere. -/
def doubleText : Number → List Char
  | .finite negative steps _ =>
    let d := Number.shortest .toEven steps
    let e := d.digits.length - 1 + d.exponent
    Number.sign negative ++
      if -5 ≤ e ∧ e < 16 then Number.positional d ++ if 0 ≤ d.exponent then ['.', '0'] else []
      else pointed d.digits ++ ('e' :: (if e < 0 then '-' else '+') :: Nat.toDigits 10 e.natAbs)
  | _ => "null".toList

def intText (n : Int) : List Char := Number.sign (n < 0) ++ Nat.toDigits 10 n.natAbs

mutual

def chars : Json → List Char
  | .null => "null".toList
  | .bool b => (if b then "true" else "false").toList
  | .int n => intText n
  | .double x => doubleText x
  | .str s => quoted s
  | .arr items => '[' :: itemsChars items ++ [']']
  | .obj ⟨entries⟩ => '{' :: entriesChars entries ++ ['}']

def itemsChars : List Json → List Char
  | [] => []
  | [x] => chars x
  | x :: rest => chars x ++ ',' :: itemsChars rest

def entriesChars : List (String × Json) → List Char
  | [] => []
  | [(k, x)] => quoted k ++ ':' :: chars x
  | (k, x) :: rest => quoted k ++ ':' :: chars x ++ ',' :: entriesChars rest

end

def text (j : Json) : String := String.ofList j.chars

end Json

end ScopeBlocks
