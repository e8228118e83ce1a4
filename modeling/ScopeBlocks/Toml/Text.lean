import ScopeBlocks.Json.Reader
import ScopeBlocks.Text.Reader

/-! Strings and keys of TOML documents. -/
namespace ScopeBlocks.Toml

open Reader

def isSpace (c : Char) : Bool := c == ' ' || c == '\t'

def space : Reader Unit := do let _ ← takeWhile isSpace

def newline : Reader Unit := literal "\n" <|> literal "\r\n"

/-- Characters that text may hold as they are: all but controls, tabs apart. -/
def isPlain (c : Char) : Bool := c == '\t' || (c.toNat ≥ 0x20 && c.toNat ≠ 0x7F)

def codePoint (digits : Nat) : Reader Char := fun s =>
  let code := (s.take digits).foldlM (fun n c => (Json.hexValue? c).map (n * 16 + ·)) 0
  match code with
  | some n =>
    if digits ≤ s.length ∧ (n < 0xD800 ∨ (0xDFFF < n ∧ n < 0x110000)) then
      some (Char.ofNat n, s.drop digits)
    else none
  | none => none

def escape : Reader Char := do
  literal "\\"
  match ← char fun _ => true with
  | 'b' => return '\x08'
  | 't' => return '\t'
  | 'n' => return '\n'
  | 'f' => return '\x0C'
  | 'r' => return '\r'
  | '"' => return '"'
  | '\\' => return '\\'
  | 'u' => codePoint 4
  | 'U' => codePoint 8
  | _ => failure

def basicChar : Reader Char := char (fun c => isPlain c && c != '"' && c != '\\') <|> escape

def basicString : Reader String := do
  literal "\""
  let body ← many basicChar
  literal "\""
  return String.ofList body

def literalString : Reader String := do
  literal "'"
  let body ← takeWhile fun c => isPlain c && c != '\''
  literal "'"
  return String.ofList body

/-- Fewer quotes than end a text of several lines. -/
def fewQuotes (q : Char) : Reader (List Char) := do
  let quotes ← takeWhile (· == q)
  if quotes = [] ∨ quotes.length ≥ 3 then failure else return quotes

/-- The quotes that end a text of several lines; up to two before the last three belong to it. -/
def lastQuotes (q : Char) : Reader (List Char) := fun s =>
  let count := min (s.takeWhile (· == q)).length 5
  if count ≥ 3 then some (List.replicate (count - 3) q, s.drop count) else none

/-- A backslash at the end of a line takes the line break and all white space after it away. -/
def joinedLines : Reader Unit := do
  literal "\\"
  space
  newline
  let _ ← many do (do let _ ← char isSpace) <|> newline

def lineBreak : Reader (List Char) := do newline; return ['\n']

def longBasicString : Reader String := do
  literal "\"\"\""
  let _ ← optional newline
  let body ← many <| lineBreak <|> (do joinedLines; return []) <|>
    (do return [← basicChar]) <|> fewQuotes '"'
  return String.ofList (body.flatten ++ (← lastQuotes '"'))

def longLiteralString : Reader String := do
  literal "'''"
  let _ ← optional newline
  let body ← many <| lineBreak <|> (do return [← char fun c => isPlain c && c != '\'']) <|>
    fewQuotes '\''
  return String.ofList (body.flatten ++ (← lastQuotes '\''))

def string : Reader String :=
  longBasicString <|> longLiteralString <|> basicString <|> literalString

def isBare (c : Char) : Bool := c.isAlphanum || c == '-' || c == '_'

def bareKey : Reader String := do
  let key ← takeWhile isBare
  if key = [] then failure else return String.ofList key

def simpleKey : Reader String := basicString <|> literalString <|> bareKey

/-- Most parts of a key, and most brackets and braces around a value. -/
def maxDepth : Nat := 79

/-- Keys joined by dots, as the last one and the path before it. -/
def dottedKey : Reader (List String × String) := do
  let keys ← separated (do space; let key ← simpleKey; space; return key) (literal ".")
  match keys.getLast? with
  | some key => if keys.length ≤ maxDepth then return (keys.dropLast, key) else failure
  | none => failure

end ScopeBlocks.Toml
