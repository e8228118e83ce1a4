import ScopeBlocks.Number.Basic

/-! Decimal text read as a number: digits with an optional point and exponent, or a word for
not-a-number and the infinities, rounded once to the nearest number. -/
namespace ScopeBlocks

/-- The quantity `coefficient * 10 ^ exponent`. -/
structure Decimal where
  coefficient : Nat
  exponent : Int
  deriving DecidableEq, Repr

namespace Decimal

def digitValue (c : Char) : Nat := c.toNat - '0'.toNat

/-- The number written by a list of decimal digits. -/
def ofDigits (digits : List Char) : Nat :=
  digits.foldl (fun n c => 10 * n + digitValue c) 0

/-- The digits of the coefficient, the first one not zero unless it is the only one. -/
def digits (d : Decimal) : List Char := Nat.toDigits 10 d.coefficient

/-- Beyond 10^310 every number is infinite, and below 10^-330 zero. -/
def toNumber (negative : Bool) (d : Decimal) : Number :=
  let magnitude := d.digits.length + d.exponent
  if d.coefficient = 0 then .signedZero negative
  else if 310 < magnitude then .infinite negative
  else if magnitude < -330 then .signedZero negative
  else .ofRatio negative (d.coefficient * Nat.pow 10 d.exponent.toNat)
    (Nat.pow 10 (-d.exponent).toNat)

/-- Whether a minus stands first, and what follows the sign. -/
def sign : List Char → Bool × List Char
  | '-' :: rest => (true, rest)
  | '+' :: rest => (false, rest)
  | rest => (false, rest)

theorem sign_length (s : List Char) : (sign s).2.length ≤ s.length := by
  unfold sign
  split <;> simp

/-- Digits after a mark, a sign before them allowed; the text may also be empty. -/
def exponent? : List Char → Option Int
  | [] => some 0
  | mark :: rest =>
    let (negative, digits) := sign rest
    if (mark = 'e' ∨ mark = 'E') ∧ digits ≠ [] ∧ digits.all Char.isDigit then
      some (if negative then -(ofDigits digits : Int) else ofDigits digits)
    else none

/-- Digits with an optional point, at least one digit on either side, and an optional exponent. -/
def read? (text : List Char) : Option Decimal :=
  let whole := text.takeWhile Char.isDigit
  let (fraction, rest) := match text.dropWhile Char.isDigit with
    | '.' :: r => (r.takeWhile Char.isDigit, r.dropWhile Char.isDigit)
    | r => ([], r)
  if whole = [] ∧ fraction = [] then none
  else (exponent? rest).map fun e => ⟨ofDigits (whole ++ fraction), e - fraction.length⟩

end Decimal

namespace Number

/-- An unsigned decimal, `inf`, `infinity` or `nan`, the words in any case. -/
def readUnsigned? (negative : Bool) (text : List Char) : Option Number :=
  match text.map Char.toLower with
  | ['i', 'n', 'f'] | ['i', 'n', 'f', 'i', 'n', 'i', 't', 'y'] => some (.infinite negative)
  | ['n', 'a', 'n'] => some .nan
  | _ => (Decimal.read? text).map (Decimal.toNumber negative)

/-- A number as text, with an optional sign and nothing around it. -/
def readChars? : List Char → Option Number
  | '-' :: rest => readUnsigned? true rest
  | '+' :: rest => readUnsigned? false rest
  | text => readUnsigned? false text

def read? (text : String) : Option Number := readChars? text.toList

end Number

end ScopeBlocks
