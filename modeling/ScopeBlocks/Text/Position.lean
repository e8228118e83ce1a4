/-! Places in a text, named by what follows them, and the line and column that a reader is shown. -/
namespace ScopeBlocks.Text

/-- Lines and columns count from one. -/
structure Position where
  line : Nat
  column : Nat
  deriving DecidableEq, Repr

namespace Position

def start : Position := ⟨1, 1⟩

/-- A line feed ends a line; every other character takes one column. -/
def next (p : Position) (c : Char) : Position :=
  if c = '\n' then ⟨p.line + 1, 1⟩ else ⟨p.line, p.column + 1⟩

def after (cs : List Char) : Position := cs.foldl next start

/-- The position in `text` of the place that `rest` follows. -/
def of (text rest : List Char) : Position := after (text.take (text.length - rest.length))

def text (p : Position) : String := s!"line {p.line}:{p.column}"

end Position

end ScopeBlocks.Text
