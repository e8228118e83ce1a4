import ScopeBlocks.Workspace.Block
import ScopeBlocks.Xml.Event

/-! Workspaces read from XML documents, one event after another. The state says between which elements
of the document the reader stands and what it has collected there; elements that mean nothing at their
place are passed over with all that they hold. Reading stops at the end of the root element. -/
namespace ScopeBlocks

open Xml (Event Tag)

inductive ImportError where
  | malformed (cause : Xml.Error)
  | wrongRoot (found : String)
  | missingRoot
  | truncated
  | coordinate (text : String)
  deriving DecidableEq, Repr

def ImportError.reason : ImportError → String
  | .malformed cause => cause.message
  | .wrongRoot found => s!"expected <xml> root element, found <{found}>"
  | .missingRoot => "missing <xml> root element"
  | .truncated => "unexpected end of document"
  | .coordinate text => s!"invalid block coordinate '{text}'"

def ImportError.message (e : ImportError) : String := "Invalid block XML: " ++ e.reason

namespace Import

/-- A block stands for itself in its socket or shows what stands there without one. -/
inductive Role where
  | plugged
  | shadow
  deriving DecidableEq, Repr

/-- A block whose element is open, and the blocks chained after it. -/
structure OpenBlock where
  role : Role
  block : Block
  rest : List Block
  deriving Repr

def OpenBlock.chain (b : OpenBlock) : List Block := b.block :: b.rest

/-- The part of a block that an element fills. -/
inductive Slot where
  | value (name : String)
  | statement (name : String)
  | next
  deriving DecidableEq, Repr

structure OpenInput where
  slot : Slot
  chain : List Block
  shadow : Option Block
  deriving Repr

/-- The input with a finished block in it, in the place of an earlier one. -/
def OpenInput.receive (i : OpenInput) (b : OpenBlock) : OpenInput :=
  match b.role with
  | .plugged => { i with chain := b.chain }
  | .shadow => { i with shadow := some b.block }

def OpenBlock.receive (b : OpenBlock) (i : OpenInput) : OpenBlock :=
  match i.slot with
  | .value name =>
    { b with block.values := b.block.values.insert name ⟨i.chain.head?, i.shadow⟩ }
  | .statement name => { b with block.statements := b.block.statements.insert name i.chain }
  | .next => { b with rest := i.chain }

def OpenBlock.setField (b : OpenBlock) (name : String) (f : Field) : OpenBlock :=
  { b with block.fields := b.block.fields.insert name f }

def OpenBlock.mutate (b : OpenBlock) (attributes : Dict String) : OpenBlock :=
  { b with block.mutation := b.block.mutation.union attributes }

/-- The elements that are open around a place, the innermost block apart: each a block and the input of
it that holds the next one. -/
abbrev Path := List (OpenBlock × OpenInput)

inductive Place where
  | top
  | varList (found : List Variable)
  | varText (found : List Variable) (id : Option String) (text : List Char)
  | block (outer : Path) (b : OpenBlock)
  | field (outer : Path) (b : OpenBlock) (name : String) (id : Option String) (text : List Char)
  | input (outer : Path) (b : OpenBlock) (i : OpenInput)
  deriving Repr

/-- The workspace holds what has been read to its end. A passed-over element counts the elements that
are open in it. -/
inductive State where
  | seeking
  | reading (w : Workspace) (place : Place)
  | skipping (w : Workspace) (place : Place) (name : String) (depth : Nat)
  | finished (w : Workspace)
  deriving Repr

/-- A finished block goes into the input around it, or makes a stack. -/
def finish (w : Workspace) (outer : Path) (b : OpenBlock) : State :=
  match outer with
  | [] => .reading { w with stackList := w.stackList ++ [b.chain] } .top
  | (c, i) :: outer => .reading w (.input outer c (i.receive b))

def attributes (t : Tag) : Except ImportError (Dict String) := t.attributes.mapError .malformed

/-- Blank-trimmed decimal text, rounded half away from zero to 64 bits. -/
def coordinate (text : String) : Except ImportError Int :=
  match Number.readChars? (Text.trimChars text.toList) with
  | some x => .ok (x.roundBetween (-Word.half) (Word.half - 1))
  | none => .error (.coordinate text)

def position (a : Dict String) : Except ImportError (Option (Int × Int)) :=
  match a.get? "x", a.get? "y" with
  | some x, some y => do return some (← coordinate x, ← coordinate y)
  | _, _ => .ok none

def opened (role : Role) (t : Tag) : Except ImportError OpenBlock := do
  let a ← attributes t
  let block := { Block.ofKind ((a.get? "id").getD "") ((a.get? "type").getD "") with
    position := ← position a
    disabled := a.get? "disabled" == some "true" }
  return ⟨role, block, []⟩

def atTop (w : Workspace) : Event → Except ImportError State
  | .startTag t =>
    match t.name with
    | "variables" => .ok (.reading w (.varList []))
    | "block" => do return .reading w (.block [] (← opened .plugged t))
    | name => .ok (.skipping w .top name 0)
  | .emptyTag t =>
    match t.name with
    | "block" => do return finish w [] (← opened .plugged t)
    | _ => .ok (.reading w .top)
  | .endTag => .ok (.finished w)
  | _ => .ok (.reading w .top)

def atVariables (w : Workspace) (found : List Variable) : Event → Except ImportError State
  | .startTag t =>
    match t.name with
    | "variable" => do return .reading w (.varText found ((← attributes t).get? "id") [])
    | name => .ok (.skipping w (.varList found) name 0)
  | .emptyTag t =>
    match t.name with
    | "variable" => do
      return .reading w (.varList (found ++ [⟨(← attributes t).get? "id", ""⟩]))
    | _ => .ok (.reading w (.varList found))
  | .endTag => .ok (.reading { w with vars := found } .top)
  | _ => .ok (.reading w (.varList found))

/-- An event inside an element that holds text: the text grows, or the element ends. -/
def atText (w : Workspace) (place : List Char → Place) (text : List Char) (done : Place) :
    Event → Except ImportError State
  | .text run =>
    match Xml.unescape run with
    | .ok more => .ok (.reading w (place (text ++ more)))
    | .error e => .error (.malformed (.entity e))
  | .cdata content => .ok (.reading w (place (text ++ content)))
  | .startTag t => .ok (.skipping w (place text) t.name 0)
  | .endTag => .ok (.reading w done)
  | _ => .ok (.reading w (place text))

def atBlock (w : Workspace) (outer : Path) (b : OpenBlock) : Event → Except ImportError State
  | .startTag t => do
    let a ← attributes t
    let name := (a.get? "name").getD ""
    match t.name with
    | "mutation" => return .skipping w (.block outer (b.mutate a)) "mutation" 0
    | "field" => return .reading w (.field outer b name (a.get? "id") [])
    | "value" => return .reading w (.input outer b ⟨.value name, [], none⟩)
    | "statement" => return .reading w (.input outer b ⟨.statement name, [], none⟩)
    | "next" => return .reading w (.input outer b ⟨.next, [], none⟩)
    | other => return .skipping w (.block outer b) other 0
  | .emptyTag t => do
    let a ← attributes t
    match t.name with
    | "mutation" => return .reading w (.block outer (b.mutate a))
    | "field" =>
      return .reading w (.block outer (b.setField ((a.get? "name").getD "") ⟨"", a.get? "id"⟩))
    | _ => return .reading w (.block outer b)
  | .endTag => .ok (finish w outer b)
  | _ => .ok (.reading w (.block outer b))

def atInput (w : Workspace) (outer : Path) (b : OpenBlock) (i : OpenInput) :
    Event → Except ImportError State
  | .startTag t =>
    match t.name with
    | "block" => do return .reading w (.block ((b, i) :: outer) (← opened .plugged t))
    | "shadow" => do return .reading w (.block ((b, i) :: outer) (← opened .shadow t))
    | name => .ok (.skipping w (.input outer b i) name 0)
  | .emptyTag t =>
    match t.name with
    | "block" => do return finish w ((b, i) :: outer) (← opened .plugged t)
    | "shadow" => do return finish w ((b, i) :: outer) (← opened .shadow t)
    | _ => .ok (.reading w (.input outer b i))
  | .endTag => .ok (.reading w (.block outer (b.receive i)))
  | _ => .ok (.reading w (.input outer b i))

def Place.step (w : Workspace) (e : Event) : Place → Except ImportError State
  | .top => atTop w e
  | .varList found => atVariables w found e
  | .varText found id text =>
    atText w (.varText found id) text (.varList (found ++ [⟨id, String.ofList text⟩])) e
  | .block outer b => atBlock w outer b e
  | .field outer b name id text =>
    atText w (.field outer b name id) text (.block outer (b.setField name ⟨String.ofList text, id⟩)) e
  | .input outer b i => atInput w outer b i e

def atSeeking : Event → Except ImportError State
  | .startTag t => if t.name = "xml" then .ok (.reading .empty .top) else .error (.wrongRoot t.name)
  | .emptyTag t => if t.name = "xml" then .ok (.finished .empty) else .error (.wrongRoot t.name)
  | _ => .ok .seeking

def atSkipping (w : Workspace) (place : Place) (name : String) (depth : Nat) : Event → State
  | .startTag _ => .skipping w place name (depth + 1)
  | .endTag =>
    match depth with
    | 0 => .reading w place
    | d + 1 => .skipping w place name d
  | _ => .skipping w place name depth

def State.atEnd : State → ImportError
  | .seeking => .missingRoot
  | .skipping _ _ name _ => .malformed (.missingEnd name)
  | _ => .truncated

def State.step (s : State) : Event → Except ImportError State
  | .failure e => .error (.malformed e)
  | .eof => .error s.atEnd
  | e =>
    match s with
    | .seeking => atSeeking e
    | .reading w place => place.step w e
    | .skipping w place name depth => .ok (atSkipping w place name depth e)
    | .finished w => .ok (.finished w)

def State.run (s : State) : List Event → Except ImportError Workspace
  | [] =>
    match s with
    | .finished w => .ok w
    | s => .error s.atEnd
  | e :: rest =>
    match s with
    | .finished w => .ok w
    | s => do (← s.step e).run rest

end Import

def Workspace.ofXml (document : String) : Except ImportError Workspace :=
  Import.State.seeking.run (Event.scan document.toList)

end ScopeBlocks
