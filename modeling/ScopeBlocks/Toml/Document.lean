import ScopeBlocks.Toml.Scalar

/-! TOML documents: lines with keys and headers, put one after another into the root table. -/
namespace ScopeBlocks.Toml

open Reader

def comment : Reader Unit := do
  literal "#"
  let _ ← takeWhile isPlain

/-- White space, comments and line breaks between the items of an array. -/
def gap : Reader Unit := do
  let _ ← many do (do let _ ← char isSpace) <|> comment <|> newline

/-- An array around its items, or an inline table around its keys and values. -/
def bracketed {α : Type} (first last : String) (blank : Reader Unit) (trailing : Bool)
    (item : Reader α) : Reader (List α) := do
  literal first
  blank
  let items ← optional (separated (do blank; let a ← item; blank; return a) (literal ","))
  if trailing && items.isSome then
    let _ ← optional (literal ",")
  blank
  literal last
  return items.getD []

def keyed (v : Reader Value) : Reader ((List String × String) × Value) := do
  let key ← dottedKey
  literal "="
  space
  return (key, ← v)

def inlineTable (pairs : List ((List String × String) × Value)) : Option Entries :=
  pairs.foldlM (fun entries ((path, key), v) => entries.assign path key v .inline) []

/-- A value inside at most so many brackets and braces of its own. -/
def valueWithin : Nat → Reader Value
  | 0 => scalar
  | depth + 1 =>
    scalar <|>
      (do return .array (← bracketed "[" "]" gap true (valueWithin depth))) <|> do
        let pairs ← bracketed "\x7b" "\x7d" space false (keyed (valueWithin depth))
        match inlineTable pairs with
        | some entries => return .table .inline entries
        | none => failure

def value : Reader Value := valueWithin maxDepth

inductive Line where
  | blank
  | assignment (path : List String) (key : String) (v : Value)
  | table (path : List String) (key : String)
  | element (path : List String) (key : String)
  deriving Repr

def header (first last : String) : Reader (List String × String) := do
  literal first
  let key ← dottedKey
  literal last
  return key

def lineContent : Reader Line :=
  (do let (path, key) ← header "[[" "]]"; return .element path key) <|>
    (do let (path, key) ← header "[" "]"; return .table path key) <|>
    (do let ((path, key), v) ← keyed value; return .assignment path key v) <|>
    return .blank

def line : Reader Line := do
  space
  let content ← lineContent
  space
  let _ ← optional comment
  newline <|> ended
  return content

/-- The root table, and the path of the table that the last header opened. -/
structure Reading where
  root : Entries
  current : List String

def Reading.addLine (r : Reading) : Line → Option Reading
  | .blank => some r
  | .assignment path key v => do
    let root ← r.root.within false (fun origin inner => inner.assign path key v origin) r.current .header
    return { r with root }
  | .table path key => do return ⟨← r.root.openTable path key, path ++ [key]⟩
  | .element path key => do return ⟨← r.root.openElement path key, path ++ [key]⟩

/-- The root table of a document; a byte order mark before it is no part of it. -/
def read? (document : String) : Option Entries := do
  let text := match document.toList with
    | '\uFEFF' :: rest => rest
    | text => text
  let lines ← (many line).readAll? text
  let r ← lines.foldlM Reading.addLine ⟨[], []⟩
  return r.root

end ScopeBlocks.Toml
