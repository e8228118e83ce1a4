import ScopeBlocks.Number.Decimal

/-! The fewest decimal digits that read back as a number, and the nearest of those to it, written
either in full or with an exponent. -/
namespace ScopeBlocks

namespace Number

/-- Which of two equally near decimals is taken. -/
inductive Tie where
  | up
  | toEven
  deriving DecidableEq, Repr

/-- Four times the distance from a count of steps to the next one, halved: how far above it a
quantity may lie and still be rounded to it. -/
def quarterStepsAbove (steps : Nat) : Nat := 2 * spacing steps

/-- Below a power of two the counts lie twice as close. -/
def quarterStepsBelow (steps : Nat) : Nat :=
  if excess steps ≠ 0 ∧ steps = Nat.pow 2 steps.log2 then spacing steps else 2 * spacing steps

/-- Whether `num / den` steps round to a count of steps; the ends of its interval do if the
mantissa is even. -/
def roundsTo (steps num den : Nat) : Bool :=
  let low := (4 * steps - quarterStepsBelow steps) * den
  let high := (4 * steps + quarterStepsAbove steps) * den
  if steps / spacing steps % 2 = 0 then low ≤ 4 * num && 4 * num ≤ high
  else low < 4 * num && 4 * num < high

/-- The exponent of the first decimal digit of a count of steps that is not zero. -/
def leadingExponent (steps : Nat) : Int :=
  if unit ≤ steps then (Nat.toDigits 10 (steps / unit)).length - 1
  else
    -((List.range 324).countP (fun j => steps * Nat.pow 10 j < unit) : Int)

/-- The nearer neighbour of a count of steps on the grid of multiples of `10 ^ exponent` among those
that round to it. -/
def onGrid? (tie : Tie) (steps : Nat) (exponent : Int) : Option Decimal :=
  let up := Nat.pow 10 (-exponent).toNat
  let cell := unit * Nat.pow 10 exponent.toNat
  let below := steps * up / cell
  let rest := steps * up % cell
  let above := below + 1
  let fits (c : Nat) : Bool := roundsTo steps (c * cell) up
  let preferAbove := cell < 2 * rest || 2 * rest == cell && (tie == .up || below % 2 == 1)
  match fits below, fits above with
  | true, true => some ⟨if preferAbove then above else below, exponent⟩
  | true, false => some ⟨below, exponent⟩
  | false, true => some ⟨above, exponent⟩
  | false, false => none

/-- A neighbour that carries into a power of ten loses its last digit. -/
def carried (d : Decimal) : Decimal :=
  if d.coefficient % 10 = 0 then ⟨d.coefficient / 10, d.exponent + 1⟩ else d

/-- The nearest decimal of the fewest digits that reads back; 17 digits always do. -/
def shortest (tie : Tie) (steps : Nat) : Decimal :=
  if steps = 0 then ⟨0, 0⟩
  else
    let e := leadingExponent steps
    match (List.range 17).findSome? fun (n : Nat) => onGrid? tie steps (e - n) with
    | some d => carried d
    | none => ⟨steps, 0⟩

/-- The digits of a decimal in full, without an exponent and without a needless point. -/
def positional (d : Decimal) : List Char :=
  let digits := d.digits
  if 0 ≤ d.exponent then digits ++ List.replicate d.exponent.toNat '0'
  else
    let places := (-d.exponent).toNat
    if places < digits.length then
      digits.take (digits.length - places) ++ '.' :: digits.drop (digits.length - places)
    else '0' :: '.' :: List.replicate (places - digits.length) '0' ++ digits

def sign (negative : Bool) : List Char := if negative then ['-'] else []

/-- Whole numbers below 10^15 are written as such, a zero without its sign; all others by their
shortest digits in full. -/
def textChars : Number → List Char
  | .nan => "NaN".toList
  | .infinite negative => sign negative ++ "Infinity".toList
  | .finite negative steps _ =>
    if steps = 0 then ['0']
    else if steps % unit = 0 ∧ steps < 1000000000000000 * unit then
      sign negative ++ Nat.toDigits 10 (steps / unit)
    else sign negative ++ positional (shortest .up steps)

def text (x : Number) : String := String.ofList x.textChars

end Number

end ScopeBlocks
