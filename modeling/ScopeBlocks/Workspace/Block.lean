import ScopeBlocks.Dict
import ScopeBlocks.Number.Decimal
import ScopeBlocks.Number.Word

/-! Workspaces of blocks: stacks of statement blocks with fields, sockets for value blocks and chains
of further statements. -/
namespace ScopeBlocks

structure Field where
  text : String
  id : Option String
  deriving DecidableEq, Repr

/-- A socket may hold a plugged block and, under it, a shadow that stands in for one. -/
structure Socket (β : Type) where
  block : Option β
  shadow : Option β
  deriving Repr, Inhabited

/-- The plugged block, else the shadow. -/
def Socket.effective {β : Type} (s : Socket β) : Option β := s.block <|> s.shadow

structure Block where
  id : String
  kind : String
  position : Option (Int × Int)
  disabled : Bool
  fields : Dict Field
  values : Dict (Socket Block)
  statements : Dict (List Block)
  mutation : Dict String
  deriving Repr

/-- A variable of a workspace; blocks may refer to it by its id. -/
structure Variable where
  id : Option String
  name : String
  deriving DecidableEq, Repr

structure Workspace where
  vars : List Variable
  stackList : List (List Block)
  deriving Repr

namespace Block

def ofKind (id kind : String) : Block := ⟨id, kind, none, false, .empty, .empty, .empty, .empty⟩

instance : Inhabited Block := ⟨ofKind "" ""⟩

def field? (b : Block) (name : String) : Option String := (b.fields.get? name).map Field.text

/-- The block that supplies the value of a socket. -/
def input? (b : Block) (name : String) : Option Block := (b.values.get? name).bind Socket.effective

mutual

/-- A block and all below it, plugged and shadow blocks alike, each before those in it. -/
def subtree : Block → List Block
  | ⟨id, kind, position, disabled, fields, ⟨values⟩, ⟨statements⟩, mutation⟩ =>
    ⟨id, kind, position, disabled, fields, ⟨values⟩, ⟨statements⟩, mutation⟩ ::
      (socketsSubtree values ++ chainsSubtree statements)

def optionSubtree : Option Block → List Block
  | none => []
  | some b => subtree b

def socketsSubtree : List (String × Socket Block) → List Block
  | [] => []
  | (_, ⟨block, shadow⟩) :: rest =>
    optionSubtree block ++ optionSubtree shadow ++ socketsSubtree rest

def chainsSubtree : List (String × List Block) → List Block
  | [] => []
  | (_, chain) :: rest => chainSubtree chain ++ chainsSubtree rest

def chainSubtree : List Block → List Block
  | [] => []
  | b :: rest => subtree b ++ chainSubtree rest

end

mutual

/-- A block and those below it that can take effect: of a socket only the effective block. -/
def active : Block → List Block
  | ⟨id, kind, position, disabled, fields, ⟨values⟩, ⟨statements⟩, mutation⟩ =>
    ⟨id, kind, position, disabled, fields, ⟨values⟩, ⟨statements⟩, mutation⟩ ::
      (socketsActive values ++ chainsActive statements)

def socketsActive : List (String × Socket Block) → List Block
  | [] => []
  | (_, ⟨some b, _⟩) :: rest => active b ++ socketsActive rest
  | (_, ⟨none, some b⟩) :: rest => active b ++ socketsActive rest
  | (_, ⟨none, none⟩) :: rest => socketsActive rest

def chainsActive : List (String × List Block) → List Block
  | [] => []
  | (_, chain) :: rest => chainActive chain ++ chainsActive rest

def chainActive : List Block → List Block
  | [] => []
  | b :: rest => active b ++ chainActive rest

end

/-- Digits after an optional plus sign, as a word of 64 bits. -/
def readWord? (text : List Char) : Option Nat :=
  let digits := match text with
    | '+' :: rest => rest
    | text => text
  if digits ≠ [] ∧ digits.all Char.isDigit ∧ Decimal.ofDigits digits < Word.limit then
    some (Decimal.ofDigits digits)
  else none

/-- A count that a mutation declares, zero where it is missing or is no count. -/
def mutationCount (b : Block) (name : String) : Nat :=
  ((b.mutation.get? name).bind fun text => readWord? text.toList).getD 0

end Block

namespace Workspace

def empty : Workspace := ⟨[], []⟩

instance : Inhabited Workspace := ⟨empty⟩

def blocks (w : Workspace) : List Block := w.stackList.flatMap Block.chainSubtree

def blockCount (w : Workspace) : Nat := w.blocks.length

def find? (w : Workspace) (id : String) : Option Block := w.blocks.find? (·.id == id)

/-- The name of the variable with an id; of variables with one id the last counts. -/
def nameOf? (w : Workspace) (id : String) : Option String :=
  (w.vars.reverse.find? (·.id == some id)).map Variable.name

/-- The variable that a block names: the text of its field, else the variable whose id it gives. -/
def variableOf (w : Workspace) (b : Block) : String :=
  match b.fields.get? "VAR" with
  | some f => if f.text.isEmpty then ((f.id.bind w.nameOf?).getD "") else f.text
  | none => ""

/-- Where a stack stands: those with a position first, from top to bottom and from left to right. -/
def stackKey (stack : List Block) : Nat × Int × Int :=
  match stack.head?.bind Block.position with
  | some (x, y) => (0, y, x)
  | none => (1, 0, 0)

def keyLE (a b : Nat × Int × Int) : Bool :=
  a.1 < b.1 || (a.1 == b.1 && (a.2.1 < b.2.1 || (a.2.1 == b.2.1 && a.2.2 ≤ b.2.2)))

/-- The stacks in the order in which they run; of stacks at one place the earlier one first. -/
def orderedStacks (w : Workspace) : List (List Block) :=
  (w.stackList.filter (!·.isEmpty)).mergeSort fun a b => keyLE (stackKey a) (stackKey b)

end Workspace

end ScopeBlocks
