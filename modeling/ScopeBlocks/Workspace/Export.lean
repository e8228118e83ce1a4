import ScopeBlocks.Workspace.Block
import ScopeBlocks.Xml.Node

/-! Workspaces written as XML documents. The parts of a block follow a fixed order, and those of one
kind the order of their names; a chain is written as each block inside the one before it. Stacks and
statement chains without blocks are left out. -/
namespace ScopeBlocks

open Xml (Node)

namespace Block

def xmlAttributes (b : Block) : List (String × String) :=
  [("type", b.kind), ("id", b.id)] ++
    (match b.position with
    | some (x, y) => [("x", toString x), ("y", toString y)]
    | none => []) ++
    (if b.disabled then [("disabled", "true")] else [])

def mutationNodes (b : Block) : List Node :=
  if b.mutation.isEmpty then [] else [.empty "mutation" b.mutation.entries]

def fieldNodes (b : Block) : List Node :=
  b.fields.entries.map fun (name, f) =>
    .ofText "field" (("name", name) :: (f.id.map ("id", ·)).toList) f.text

/-- An element, written as an empty one if nothing is in it. -/
def nodeWith (tag : String) (attributes : List (String × String)) (children : List Node) : Node :=
  if children.isEmpty then .empty tag attributes else .element tag attributes children

mutual

/-- A block under a tag; `next` holds the element of the blocks chained after it, if there are any. -/
def node (tag : String) (next : List Node) : Block → Node
  | ⟨id, kind, position, disabled, fields, ⟨values⟩, ⟨statements⟩, mutation⟩ =>
    let b : Block := ⟨id, kind, position, disabled, fields, ⟨values⟩, ⟨statements⟩, mutation⟩
    nodeWith tag b.xmlAttributes
      (b.mutationNodes ++ b.fieldNodes ++ valueNodes values ++ statementNodes statements ++ next)

def optionNodes (tag : String) : Option Block → List Node
  | none => []
  | some b => [node tag [] b]

def valueNodes : List (String × Socket Block) → List Node
  | [] => []
  | (name, ⟨block, shadow⟩) :: rest =>
    .element "value" [("name", name)] (optionNodes "shadow" shadow ++ optionNodes "block" block) ::
      valueNodes rest

def statementNodes : List (String × List Block) → List Node
  | [] => []
  | (name, chain) :: rest =>
    (if chain.isEmpty then [] else [.element "statement" [("name", name)] (chainNodes chain)]) ++
      statementNodes rest

/-- The first block of a chain, with the others in it; no element for an empty chain. -/
def chainNodes : List Block → List Node
  | [] => []
  | b :: rest =>
    [node "block" (if rest.isEmpty then [] else [.element "next" [] (chainNodes rest)]) b]

end

end Block

def Variable.node (v : Variable) : Node :=
  .ofText "variable" ((v.id.map ("id", ·)).toList) v.name

def Workspace.xmlNamespace : String := "https://developers.google.com/blockly/xml"

def Workspace.node (w : Workspace) : Node :=
  .element "xml" [("xmlns", xmlNamespace)] <|
    (if w.vars.isEmpty then [] else [.element "variables" [] (w.vars.map Variable.node)]) ++
      w.stackList.flatMap Block.chainNodes

def Workspace.toXml (w : Workspace) : String := String.ofList w.node.chars

end ScopeBlocks
