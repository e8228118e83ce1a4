import ScopeBlocks.Xml.Entity

/-! Elements as they are written: each tag on a line of its own, two blanks deeper than the element
around it, but text together with its tags. -/
namespace ScopeBlocks.Xml

/-- An element without content, with text or with further elements. -/
inductive Node where
  | empty (name : String) (attributes : List (String × String))
  | text (name : String) (attributes : List (String × String)) (content : String)
  | element (name : String) (attributes : List (String × String)) (children : List Node)
  deriving Repr

namespace Node

def attributeText : String × String → List Char
  | (name, value) => ' ' :: name.toList ++ "=\"".toList ++ escape value.toList ++ ['"']

def tagText (name : String) (attributes : List (String × String)) : List Char :=
  name.toList ++ attributes.flatMap attributeText

def opening (name : String) (attributes : List (String × String)) : List Char :=
  '<' :: tagText name attributes ++ ['>']

def closing (name : String) : List Char := "</".toList ++ name.toList ++ ['>']

def indent (depth : Nat) (line : List Char) : List Char := List.replicate (2 * depth) ' ' ++ line

mutual

/-- The lines of an element at a depth; the text in one may itself run over several. -/
def lines (depth : Nat) : Node → List (List Char)
  | .empty name attributes => [indent depth ('<' :: tagText name attributes ++ "/>".toList)]
  | .text name attributes content =>
    [indent depth (opening name attributes ++ escape content.toList ++ closing name)]
  | .element name attributes children =>
    indent depth (opening name attributes) :: linesAll (depth + 1) children ++
      [indent depth (closing name)]

def linesAll (depth : Nat) : List Node → List (List Char)
  | [] => []
  | n :: rest => lines depth n ++ linesAll depth rest

end

def chars (n : Node) : List Char := ['\n'].intercalate (n.lines 0)

end Node

/-- An element that holds a text; none is written for an empty one. -/
def Node.ofText (name : String) (attributes : List (String × String)) (content : String) : Node :=
  if content.isEmpty then .empty name attributes else .text name attributes content

end ScopeBlocks.Xml
