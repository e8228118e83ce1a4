import ScopeBlocks.Json.Reader
import ScopeBlocks.Number.Word
import ScopeBlocks.Text.Blank
import ScopeBlocks.Text.Split
import ScopeBlocks.Xml.Error

/-! Characters written as entities: the five that markup needs, and any character by its number. -/
namespace ScopeBlocks.Xml

/-- How a character is written in a text or an attribute value. -/
def escapeChar : Char → List Char
  | '<' => "&lt;".toList
  | '>' => "&gt;".toList
  | '&' => "&amp;".toList
  | '\'' => "&apos;".toList
  | '"' => "&quot;".toList
  | c => [c]

def escape (s : List Char) : List Char := s.flatMap escapeChar

/-- The value of digits that fit 32 bits; the first digit that is none, or that makes the value too
large, decides the error. -/
def readCode (radix : Nat) : Nat → List Char → Except ReferenceError Nat
  | n, [] => .ok n
  | n, c :: rest =>
    match (Json.hexValue? c).filter (· < radix) with
    | none => .error .digit
    | some d => if n * radix + d < Word.shortLimit then readCode radix (n * radix + d) rest else .error .overflow

/-- The number of a character: digits without a sign, hexadecimal ones after an `x`. -/
def characterCode (body : List Char) : Except ReferenceError Nat :=
  let (radix, digits) := match body with
    | 'x' :: rest => (16, rest)
    | body => (10, body)
  match digits with
  | [] => .error .empty
  | '+' :: _ | '-' :: _ => .error .sign
  | digits => readCode radix 0 digits

def character (body : List Char) : Except ReferenceError Char := do
  let code ← characterCode body
  if code = 0 then throw .zero
  else if code < 0xD800 ∨ (0xDFFF < code ∧ code < 0x110000) then return Char.ofNat code
  else throw (.notACharacter code)

def named? : List Char → Option Char
  | ['l', 't'] => some '<'
  | ['g', 't'] => some '>'
  | ['a', 'm', 'p'] => some '&'
  | ['a', 'p', 'o', 's'] => some '\''
  | ['q', 'u', 'o', 't'] => some '"'
  | _ => none

/-- The character that an entity stands for; its name begins at an offset. -/
def resolve (offset : Nat) (name : List Char) : Except EntityError Char :=
  match name with
  | '#' :: body => (character body).mapError .reference
  | name =>
    match named? name with
    | some c => .ok c
    | none => .error (.unknown offset (offset + Text.byteLength name) (String.ofList name))

def inEntity (c : Char) : Bool := c != '&' && c != ';'

/-- The characters of a run from an offset on; `total` is the length of the whole run. -/
def unescapeFrom (total offset : Nat) : List Char → Except EntityError (List Char)
  | [] => .ok []
  | c :: rest =>
    if c = '&' then
      match h : rest.dropWhile inEntity with
      | ';' :: after => do
        let name := rest.takeWhile inEntity
        let x ← resolve (offset + 1) name
        return x :: (← unescapeFrom total (offset + Text.byteLength name + 2) after)
      | _ => .error (.unterminated offset total)
    else do
      return c :: (← unescapeFrom total (offset + c.utf8Size) rest)
termination_by s => s.length
decreasing_by
  · have := Text.length_dropWhile_le inEntity rest
    rw [h] at this
    simp only [List.length_cons] at *
    omega
  · simp

def unescape (run : List Char) : Except EntityError (List Char) :=
  unescapeFrom (Text.byteLength run) 0 run

end ScopeBlocks.Xml
