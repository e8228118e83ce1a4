import ScopeBlocks.Text.Blank
import ScopeBlocks.Workspace.Block
import ScopeBlocks.Workspace.Plan

/-! The plan of a workspace. It exists unless some block that takes effect is unknown, out of place, or
has an option or a number of sockets that nothing supports; the first such block in running order is
named. What a block means depends on its own fields and on what the blocks inside it mean. -/
namespace ScopeBlocks

/-- Blocks that do something and blocks that stand for a value. -/
inductive Shape where
  | statement | value
  deriving DecidableEq, Repr

def statementKinds : List String :=
  ["capture", "autofocus", "wait_seconds", "move_stage", "move_stage_3d", "text_print",
    "variables_set", "math_change", "controls_if", "controls_repeat", "controls_repeat_ext",
    "controls_whileUntil", "controls_for", "controls_flow_statements"]

def valueKinds : List String :=
  ["get_position", "get_sharpness_metric", "text", "text_join", "text_prompt", "text_prompt_ext",
    "math_number", "math_arithmetic", "math_modulo", "logic_boolean", "logic_null",
    "logic_compare", "logic_operation", "logic_negate", "variables_get"]

def Shape.ofKind? (kind : String) : Option Shape :=
  if statementKinds.contains kind then some .statement
  else if valueKinds.contains kind then some .value
  else none

namespace Block

abbrev Planned (α : Type) := Except CompileError α

/-- A number field; what is not a finite number counts as zero. -/
def finiteOf (text : String) : Number :=
  match Number.readChars? (Text.trimChars text.toList) with
  | some x => if x.isFinite then x else .zero
  | none => .zero

def numberField (b : Block) (name : String) : Number := finiteOf ((b.field? name).getD "0")

/-- The number that a key gives after one of some words. -/
def socketIndex? (words : List String) (key : String) : Option Nat :=
  (words.findSome? fun w => if w.toList.isPrefixOf key.toList then
    some (key.toList.drop w.length) else none).bind readWord?

/-- The number of numbered sockets: as many as declared, or as the highest one present needs. -/
def socketCount (b : Block) (declared : Nat) (words : List String) : Planned Nat :=
  let indices := (b.values.keys ++ b.statements.keys).filterMap (socketIndex? words)
  let count := indices.foldl (fun n i => max n (min (i + 1) (Word.limit - 1))) declared
  if maxSockets < count then .error (.tooManySockets b.id count) else .ok count

def unknown (b : Block) : CompileError := .unknownBlock b.id b.kind

/-- The plans of what is plugged into the sockets of a block, by the names of the sockets. -/
abbrev Inputs := List (String × Planned Term)

/-- The plan of a socket, or what stands for an empty one. -/
def Inputs.get (inputs : Inputs) (name : String) (default : Term) : Planned Term :=
  (inputs.lookup name).getD (.ok default)

def arithmeticOp (b : Block) : Planned Script.BinaryOp :=
  match b.field? "OP" with
  | none | some "ADD" => .ok .add
  | some "MINUS" => .ok .sub
  | some "MULTIPLY" => .ok .mul
  | some "DIVIDE" => .ok .div
  | some other => .error (.unsupportedOperator b.id other)

def compareOp (b : Block) : Script.BinaryOp :=
  match b.field? "OP" with
  | some "NEQ" => .ne
  | some "LT" => .lt
  | some "LTE" => .le
  | some "GT" => .gt
  | some "GTE" => .ge
  | _ => .eq

def logicOp (b : Block) : Script.BinaryOp := if b.field? "OP" = some "OR" then .or else .and

/-- A binary operation on two sockets, the left one first. -/
def binaryTerm (inputs : Inputs) (op : Script.BinaryOp) (left right : String) (default : Term) :
    Planned Term := do
  let l ← inputs.get left default
  return .binary op l (← inputs.get right default)

def isNumericPrompt (b : Block) : Bool := b.field? "TYPE" = some "NUMBER"

/-- What a block stands for as a value, from the plans of its inputs. -/
def termOf (variableOf : Block → String) (b : Block) (inputs : Inputs) : Planned Term :=
  match b.kind with
  | "math_number" => .ok (.number (b.numberField "NUM"))
  | "text" => .ok (.text ((b.field? "TEXT").getD ""))
  | "logic_boolean" => .ok (.truth (b.field? "BOOL" = some "TRUE"))
  | "logic_null" => .ok .null
  | "variables_get" => .ok (.var (variableOf b))
  | "get_position" =>
    .ok (.position (Script.AsyncCall.lowerCase ((b.field? "axis_name").getD "x")))
  | "get_sharpness_metric" => .ok .sharpness
  | "math_arithmetic" => do binaryTerm inputs (← b.arithmeticOp) "A" "B" (.number 0)
  | "math_modulo" => binaryTerm inputs .rem "DIVIDEND" "DIVISOR" (.number 0)
  | "logic_compare" => binaryTerm inputs b.compareOp "A" "B" (.number 0)
  | "logic_operation" => binaryTerm inputs b.logicOp "A" "B" (.truth false)
  | "logic_negate" => do return .negate (← inputs.get "BOOL" (.truth true))
  | "text_join" => do
    let n ← b.socketCount (b.mutationCount "items") ["ADD"]
    return .join (← (List.range n).mapM fun i => inputs.get s!"ADD{i}" (.text ""))
  | "text_prompt" => .ok (.prompt b.isNumericPrompt (.text ((b.field? "TEXT").getD "")))
  | "text_prompt_ext" => do
    return .prompt b.isNumericPrompt (← inputs.get "TEXT" (.text ""))
  | kind =>
    if Shape.ofKind? kind = some .statement then .error (.misplaced b.id kind .asValue)
    else .error b.unknown

mutual

def term (variableOf : Block → String) : Block → Planned Term
  | ⟨id, kind, position, disabled, fields, ⟨values⟩, statements, mutation⟩ =>
    termOf variableOf ⟨id, kind, position, disabled, fields, ⟨values⟩, statements, mutation⟩
      (inputs variableOf values)

/-- The plans of the effective blocks in some sockets. -/
def inputs (variableOf : Block → String) : List (String × Socket Block) → Inputs
  | [] => []
  | (name, ⟨some b, _⟩) :: rest => (name, term variableOf b) :: inputs variableOf rest
  | (name, ⟨none, some b⟩) :: rest => (name, term variableOf b) :: inputs variableOf rest
  | (_, ⟨none, none⟩) :: rest => inputs variableOf rest

end

abbrev Chain := List (String × Action)

/-- The plans of the chains inside a block, by their names. -/
abbrev Bodies := List (String × Planned Chain)

/-- The plan of a chain; a missing one is empty. -/
def Bodies.get (bodies : Bodies) (name : String) : Planned Chain :=
  (bodies.lookup name).getD (.ok [])

def focusOf (b : Block) : Script.Focus :=
  match b.field? "autofocus_type" with
  | some "medium_autofocus" => .medium
  | some "fine_autofocus" => .fine
  | _ => .fast

def modeOf (b : Block) : Script.MoveMode :=
  if b.field? "abs_or_rel" = some "ABSOLUTE" then .absolute else .relative

/-- The first character of the axis field as a capital letter. -/
def axisOf (b : Block) : String :=
  (((b.field? "axis_name").bind fun s => s.toList.head?).getD 'x').toUpper.toString

/-- A bound that is written down: a number block's, or the usual one of an empty socket. -/
def knownBound? (b : Block) (name : String) (default : Number) : Option Number :=
  match b.input? name with
  | some input =>
    if input.kind = "math_number" then
      (input.field? "NUM").bind fun text => Number.readChars? (Text.trimChars text.toList)
    else none
  | none => some default

def boundsOf (b : Block) (inputs : Inputs) : Planned Bounds :=
  match b.knownBound? "FROM" 0, b.knownBound? "TO" 0, b.knownBound? "BY" 1 with
  | some start, some stop, some step => .ok (.fixed start stop step)
  | _, _, _ => do
    let start ← inputs.get "FROM" (.number 0)
    let stop ← inputs.get "TO" (.number 0)
    return .computed start stop (← inputs.get "BY" (.number 1))

def countOf (b : Block) (inputs : Inputs) : Planned Count :=
  match b.input? "TIMES" with
  | none => .ok (.fixed 0)
  | some times =>
    if times.kind = "math_number" then .ok (.fixed (times.numberField "NUM"))
    else do return .computed (← inputs.get "TIMES" (.number 0))

/-- The branches of a choice in order, each condition before its chain. -/
def branchesOf (inputs : Inputs) (bodies : Bodies) (n : Nat) : Planned (List (Term × Chain)) :=
  (List.range n).mapM fun i => do
    let cond ← inputs.get s!"IF{i}" (.truth false)
    return (cond, ← bodies.get s!"DO{i}")

def chooseOf (b : Block) (inputs : Inputs) (bodies : Bodies) : Planned Action := do
  let declared := min (b.mutationCount "elseif" + 1) (Word.limit - 1)
  let n ← b.socketCount declared ["IF", "DO"]
  let branches ← branchesOf inputs bodies n
  if 0 < b.mutationCount "else" ∨ b.statements.contains "ELSE" then
    return .choose branches (some (← bodies.get "ELSE"))
  else return .choose branches none

/-- What a block asks for as a statement, from the plans of its inputs and chains. -/
def actionOf (variableOf : Block → String) (b : Block) (inputs : Inputs) (bodies : Bodies) :
    Planned Action :=
  match b.kind with
  | "capture" => .ok .capture
  | "autofocus" => .ok (.autofocus b.focusOf)
  | "wait_seconds" => .ok (.wait (b.numberField "SECONDS"))
  | "move_stage" => do
    return .moveStage b.axisOf b.modeOf (← inputs.get "steps" (.number 0))
  | "move_stage_3d" => do
    let x ← inputs.get "x_steps" (.number 0)
    let y ← inputs.get "y_steps" (.number 0)
    return .moveStage3d b.modeOf x y (← inputs.get "z_steps" (.number 0))
  | "text_print" => do return .print (← inputs.get "TEXT" (.text ""))
  | "variables_set" => do return .set (variableOf b) (← inputs.get "VALUE" (.number 0))
  | "math_change" => do return .change (variableOf b) (← inputs.get "DELTA" (.number 0))
  | "controls_if" => b.chooseOf inputs bodies
  | "controls_repeat" => do
    return .countedLoop (.fixed (b.numberField "TIMES")) (← bodies.get "DO")
  | "controls_repeat_ext" => do
    let count ← b.countOf inputs
    return .countedLoop count (← bodies.get "DO")
  | "controls_whileUntil" => do
    let cond ← inputs.get "BOOL" (.truth false)
    return .whileLoop (b.field? "MODE" = some "UNTIL") cond (← bodies.get "DO")
  | "controls_for" => do
    let bounds ← b.boundsOf inputs
    return .rangeLoop (variableOf b) bounds (← bodies.get "DO")
  | "controls_flow_statements" =>
    .ok (if b.field? "FLOW" = some "CONTINUE" then .nextRound else .exitLoop)
  | kind =>
    if Shape.ofKind? kind = some .value then .error (.misplaced b.id kind .asStatement)
    else .error b.unknown

mutual

def action (variableOf : Block → String) : Block → Planned Action
  | ⟨id, kind, position, disabled, fields, values, ⟨statements⟩, mutation⟩ =>
    actionOf variableOf ⟨id, kind, position, disabled, fields, values, ⟨statements⟩, mutation⟩
      (inputs variableOf values.entries) (bodies variableOf statements)

/-- A chain of statements without its disabled ones. -/
def chain (variableOf : Block → String) : List Block → Planned Chain
  | [] => .ok []
  | b :: rest =>
    if b.disabled then chain variableOf rest
    else do
      let a ← action variableOf b
      return (b.id, a) :: (← chain variableOf rest)

def bodies (variableOf : Block → String) : List (String × List Block) → Bodies
  | [] => []
  | (name, c) :: rest => (name, chain variableOf c) :: bodies variableOf rest

end

/-- What a block in a stack asks for; a value block is allowed there. -/
def item (variableOf : Block → String) (b : Block) : Planned Item :=
  if Shape.ofKind? b.kind = some .value then do return .value (← b.term variableOf)
  else do return .action b.id (← b.action variableOf)

end Block

namespace Workspace

def planStack (w : Workspace) (stack : List Block) : Except CompileError (List Item) :=
  (stack.filter (!·.disabled)).mapM (Block.item w.variableOf)

/-- The plans of all stacks in running order. -/
def plan (w : Workspace) : Except CompileError (List (List Item)) :=
  w.orderedStacks.mapM w.planStack

end Workspace

end ScopeBlocks
