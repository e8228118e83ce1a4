import ScopeBlocks.Json.Basic
import ScopeBlocks.Number.Word

/-! JSON text read as a value. Whole numbers of 64 bits stay whole; longer ones, the negative zero and
numbers with a point or an exponent become binary64 numbers, and one too large for them is refused. -/
namespace ScopeBlocks.Json

def isSpace (c : Char) : Bool := c == ' ' || c == '\t' || c == '\n' || c == '\r'

def skipSpace (s : List Char) : List Char := s.dropWhile isSpace

def hexValue? (c : Char) : Option Nat :=
  if c.isDigit then some (c.toNat - '0'.toNat)
  else if 'a' ≤ c ∧ c ≤ 'f' then some (c.toNat - 'a'.toNat + 10)
  else if 'A' ≤ c ∧ c ≤ 'F' then some (c.toNat - 'A'.toNat + 10)
  else none

def hexUnit? (a b c d : Char) : Option Nat := do
  return ((← hexValue? a) * 16 + (← hexValue? b)) * 256 + (← hexValue? c) * 16 + (← hexValue? d)

def simpleEscape? : Char → Option Char
  | '"' => some '"'
  | '\\' => some '\\'
  | '/' => some '/'
  | 'b' => some '\x08'
  | 'f' => some '\x0c'
  | 'n' => some '\n'
  | 'r' => some '\r'
  | 't' => some '\t'
  | _ => none

/-- The characters up to the closing quote, and the text after it. Two surrogates stand for one
character; a lone one, and a control character, are refused. -/
def string? : List Char → Option (List Char × List Char)
  | [] => none
  | '"' :: rest => some ([], rest)
  | '\\' :: 'u' :: a :: b :: c :: d :: '\\' :: 'u' :: e :: f :: g :: h :: rest => do
    let high ← hexUnit? a b c d
    if 0xD800 ≤ high ∧ high < 0xDC00 then
      let low ← hexUnit? e f g h
      if 0xDC00 ≤ low ∧ low < 0xE000 then
        let (cs, r) ← string? rest
        return (Char.ofNat (0x10000 + (high - 0xD800) * 0x400 + (low - 0xDC00)) :: cs, r)
      else none
    else if 0xDC00 ≤ high ∧ high < 0xE000 then none
    else
      let (cs, r) ← string? ('\\' :: 'u' :: e :: f :: g :: h :: rest)
      return (Char.ofNat high :: cs, r)
  | '\\' :: 'u' :: a :: b :: c :: d :: rest => do
    let unit ← hexUnit? a b c d
    if 0xD800 ≤ unit ∧ unit < 0xE000 then none
    else
      let (cs, r) ← string? rest
      return (Char.ofNat unit :: cs, r)
  | '\\' :: c :: rest => do
    let x ← simpleEscape? c
    let (cs, r) ← string? rest
    return (x :: cs, r)
  | c :: rest => do
    if c.toNat < 0x20 ∨ c = '\\' then none
    else
      let (cs, r) ← string? rest
      return (c :: cs, r)
termination_by s => s.length

/-- The digits of a whole part: a zero stands alone. -/
def wholeDigits? (s : List Char) : Option (List Char × List Char) :=
  match s.takeWhile Char.isDigit, s.dropWhile Char.isDigit with
  | [], _ => none
  | '0' :: _ :: _, _ => none
  | digits, rest => some (digits, rest)

def fraction? : List Char → Option (List Char × List Char)
  | '.' :: rest =>
    match rest.takeWhile Char.isDigit with
    | [] => none
    | digits => some (digits, rest.dropWhile Char.isDigit)
  | rest => some ([], rest)

/-- The exponent where one is written, and the text after it. -/
def power? : List Char → Option (Option Int × List Char)
  | mark :: rest =>
    if mark = 'e' ∨ mark = 'E' then
      let (negative, r) := Decimal.sign rest
      match r.takeWhile Char.isDigit with
      | [] => none
      | digits =>
        let n : Int := Decimal.ofDigits digits
        some (some (if negative then -n else n), r.dropWhile Char.isDigit)
    else some (none, mark :: rest)
  | [] => some (none, [])

/-- A whole number of 64 bits, with a sign or without. -/
def fitsWord (negative : Bool) (n : Nat) : Bool :=
  if negative then n != 0 && n ≤ Word.half else n < Word.limit

def number? (negative : Bool) (s : List Char) : Option (Json × List Char) := do
  let (whole, r) ← wholeDigits? s
  let (fraction, r) ← fraction? r
  let (power, r) ← power? r
  let n := Decimal.ofDigits whole
  if fraction = [] ∧ power = none ∧ fitsWord negative n then
    return (.int (if negative then -(n : Int) else n), r)
  else
    let d : Decimal := ⟨Decimal.ofDigits (whole ++ fraction), power.getD 0 - fraction.length⟩
    let x := d.toNumber negative
    if x.isFinite then return (.double x, r) else none

mutual

/-- A value at the head of a text, of at most `depth` levels of arrays and objects. -/
def value? : Nat → Nat → List Char → Option (Json × List Char)
  | 0, _, _ => none
  | fuel + 1, depth, s =>
    match skipSpace s with
    | 'n' :: 'u' :: 'l' :: 'l' :: r => some (.null, r)
    | 't' :: 'r' :: 'u' :: 'e' :: r => some (.bool true, r)
    | 'f' :: 'a' :: 'l' :: 's' :: 'e' :: r => some (.bool false, r)
    | '"' :: r => (string? r).map fun (cs, r) => (.str (String.ofList cs), r)
    | '-' :: r => number? true r
    | '[' :: r =>
      match depth with
      | 0 => none
      | d + 1 =>
        match skipSpace r with
        | ']' :: r => some (.arr [], r)
        | r => (items? fuel d r).map fun (xs, r) => (.arr xs, r)
    | '{' :: r =>
      match depth with
      | 0 => none
      | d + 1 =>
        match skipSpace r with
        | '}' :: r => some (.obj .empty, r)
        | r => (entries? fuel d r).map fun (xs, r) => (.object xs, r)
    | r => number? false r

def items? : Nat → Nat → List Char → Option (List Json × List Char)
  | 0, _, _ => none
  | fuel + 1, depth, s => do
    let (x, r) ← value? fuel depth s
    match skipSpace r with
    | ']' :: r => return ([x], r)
    | ',' :: r =>
      let (xs, r) ← items? fuel depth r
      return (x :: xs, r)
    | _ => none

def entries? : Nat → Nat → List Char → Option (List (String × Json) × List Char)
  | 0, _, _ => none
  | fuel + 1, depth, s => do
    match skipSpace s with
    | '"' :: r =>
      let (name, r) ← string? r
      match skipSpace r with
      | ':' :: r =>
        let (x, r) ← value? fuel depth r
        match skipSpace r with
        | '}' :: r => return ([(String.ofList name, x)], r)
        | ',' :: r =>
          let (xs, r) ← entries? fuel depth r
          return ((String.ofList name, x) :: xs, r)
        | _ => none
      | _ => none
    | _ => none

end

/-- A whole text that is one value with nothing but space around it. -/
def read? (depth : Nat) (s : List Char) : Option Json := do
  let (x, r) ← value? (2 * s.length + 2) depth s
  if skipSpace r = [] then return x else none

end ScopeBlocks.Json
