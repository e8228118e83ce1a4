import ScopeBlocks.Number.Decimal
import ScopeBlocks.Number.Word
import ScopeBlocks.Toml.Text
import ScopeBlocks.Toml.Value

/-! Numbers and moments of TOML documents. -/
namespace ScopeBlocks.Toml

open Reader

/-- Whether single underscores stand only between digits. -/
def wellGrouped : List Char → Bool
  | [] => false
  | ['_'] => false
  | [_] => true
  | '_' :: _ => false
  | _ :: '_' :: rest => wellGrouped rest
  | _ :: rest => wellGrouped rest

/-- A run of digits, which underscores may group. -/
def digitRun (isDigit : Char → Bool) : Reader (List Char) := do
  let run ← takeWhile fun c => isDigit c || c == '_'
  if wellGrouped run then return run.filter (· != '_') else failure

/-- Integers are 64-bit words with a sign. -/
def integerOf (n : Int) : Reader Value :=
  if Word.isSigned n then return .integer n else failure

def radixInteger (mark : String) (radix : Nat) : Reader Value := do
  literal mark
  let isDigit (c : Char) := (Json.hexValue? c).any (· < radix)
  let digits ← digitRun isDigit
  integerOf (digits.foldl (fun n c => n * radix + (Json.hexValue? c).getD 0) 0 : Nat)

def sign : Reader (List Char) :=
  (do literal "-"; return ['-']) <|> (do literal "+"; return []) <|> return []

def fraction : Reader (List Char) := do
  literal "."
  return '.' :: (← digitRun Char.isDigit)

def exponent : Reader (List Char) := do
  let _ ← char fun c => c == 'e' || c == 'E'
  return 'e' :: (← sign) ++ (← digitRun Char.isDigit)

/-- Floating-point text; what is too large to be finite is refused unless it is negative. -/
def floatOf (text : List Char) : Reader Value :=
  match Number.readChars? text with
  | some x => if x = .infinite false then failure else return .float x
  | none => failure

/-- A number in decimal digits, without further zeros before its first one. -/
def decimal : Reader Value := do
  let s ← sign
  let digits ← digitRun Char.isDigit
  if digits.length > 1 ∧ digits.head? = some '0' then failure
  else
    let f ← optional fraction
    let e ← optional exponent
    if f.isSome || e.isSome then floatOf (s ++ digits ++ f.getD [] ++ e.getD [])
    else
      let n : Int := Decimal.ofDigits digits
      integerOf (if s = [] then n else -n)

def special : Reader Value := do
  let s ← sign
  (do literal "inf"; return .float (.infinite (s ≠ []))) <|> (do literal "nan"; return .float .nan)

/-- A number of so many decimal digits, within bounds. -/
def digitsBetween (count low high : Nat) : Reader Nat := fun s =>
  let digits := s.take count
  let n := Decimal.ofDigits digits
  if digits.length = count ∧ digits.all Char.isDigit ∧ low ≤ n ∧ n ≤ high then
    some (n, s.drop count)
  else none

def isLeapYear (year : Nat) : Bool := year % 4 == 0 && (year % 100 != 0 || year % 400 == 0)

def daysIn (year : Nat) : Nat → Nat
  | 2 => if isLeapYear year then 29 else 28
  | 4 | 6 | 9 | 11 => 30
  | _ => 31

def date : Reader Unit := do
  let year ← digitsBetween 4 0 9999
  literal "-"
  let month ← digitsBetween 2 1 12
  literal "-"
  let _ ← digitsBetween 2 1 (daysIn year month)

def time : Reader Unit := do
  let _ ← digitsBetween 2 0 23
  literal ":"
  let _ ← digitsBetween 2 0 59
  literal ":"
  let _ ← digitsBetween 2 0 60
  let _ ← optional do
    literal "."
    let _ ← char Char.isDigit
    takeWhile Char.isDigit

def offset : Reader Unit :=
  (do let _ ← char fun c => c == 'Z' || c == 'z') <|> do
    let _ ← char fun c => c == '+' || c == '-'
    let _ ← digitsBetween 2 0 23
    literal ":"
    let _ ← digitsBetween 2 0 59

/-- A date, a time or both, the latter with or without an offset. -/
def moment : Reader Value := fun s =>
  let r : Reader Unit :=
    (do
      date
      let _ ← optional do
        let _ ← char fun c => c == 'T' || c == 't' || c == ' '
        time
        optional offset) <|> time
  match r s with
  | some (_, rest) => some (.moment (String.ofList (s.take (s.length - rest.length))), rest)
  | none => none

def boolean : Reader Value :=
  (do literal "true"; return .boolean true) <|> (do literal "false"; return .boolean false)

def scalar : Reader Value :=
  (do return .string (← string)) <|> boolean <|> moment <|> radixInteger "0x" 16 <|>
    radixInteger "0o" 8 <|> radixInteger "0b" 2 <|> special <|> decimal

end ScopeBlocks.Toml
