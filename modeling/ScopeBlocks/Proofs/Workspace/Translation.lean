import ScopeBlocks.Proofs.Workspace.PlanReads

/-! The script that blocks stand for, made from the blocks themselves: neither a plan nor a text comes
between. The plan of a workspace has this script. -/
namespace ScopeBlocks

namespace Block

/-- The trees of what is plugged into the sockets of a block, by the names of the sockets. -/
abbrev Operands := List (String × Script.Expr)

def Operands.get (operands : Operands) (name : String) (default : Script.Expr) : Script.Expr :=
  (operands.lookup name).getD default

def zeroTree : Script.Expr := Number.tree 0

def truthTree (b : Bool) : Script.Expr := .literal (.bool b)

/-- The operator that an arithmetic block names, a sum if it names none. -/
def arithmetic (b : Block) : Script.BinaryOp :=
  match b.field? "OP" with
  | some "MINUS" => .sub
  | some "MULTIPLY" => .mul
  | some "DIVIDE" => .div
  | _ => .add

def sockets (b : Block) (declared : Nat) (words : List String) : Nat :=
  ((b.values.keys ++ b.statements.keys).filterMap (socketIndex? words)).foldl
    (fun n i => max n (min (i + 1) (Word.limit - 1))) declared

def operationTree (operands : Operands) (op : Script.BinaryOp) (left right : String)
    (default : Script.Expr) : Script.Expr :=
  .binary op (operands.get left default) (operands.get right default)

/-- The parts of a text, added to the empty text from the left. -/
def partsTree (parts : List Script.Expr) : Script.Expr :=
  parts.foldl (fun e part => .binary .add e part) (textTree "")

def promptTree (b : Block) (message : Script.Expr) : Script.Expr :=
  .call .prompt (message :: if b.isNumericPrompt then [textTree "number"] else [])

/-- What a block stands for as a value. -/
def exprOf (ident : Block → String) (b : Block) (operands : Operands) : Script.Expr :=
  match b.kind with
  | "math_number" => (b.numberField "NUM").tree
  | "text" => textTree ((b.field? "TEXT").getD "")
  | "logic_boolean" => truthTree (b.field? "BOOL" = some "TRUE")
  | "logic_null" => .literal .null
  | "variables_get" => .var (ident b)
  | "get_position" => .call .getPosition
      [textTree (Script.AsyncCall.lowerCase ((b.field? "axis_name").getD "x"))]
  | "get_sharpness_metric" => .call .getSharpnessMetric []
  | "math_arithmetic" => operationTree operands b.arithmetic "A" "B" zeroTree
  | "math_modulo" => operationTree operands .rem "DIVIDEND" "DIVISOR" zeroTree
  | "logic_compare" => operationTree operands b.compareOp "A" "B" zeroTree
  | "logic_operation" => operationTree operands b.logicOp "A" "B" (truthTree false)
  | "logic_negate" => .unary .not (operands.get "BOOL" (truthTree true))
  | "text_join" =>
    partsTree ((List.range (b.sockets (b.mutationCount "items") ["ADD"])).map fun i =>
      operands.get s!"ADD{i}" (textTree ""))
  | "text_prompt" => promptTree b (textTree ((b.field? "TEXT").getD ""))
  | "text_prompt_ext" => promptTree b (operands.get "TEXT" (textTree ""))
  | _ => .literal .null

mutual

def expr (ident : Block → String) : Block → Script.Expr
  | ⟨id, kind, position, disabled, fields, ⟨values⟩, statements, mutation⟩ =>
    exprOf ident ⟨id, kind, position, disabled, fields, ⟨values⟩, statements, mutation⟩
      (operands ident values)

/-- The trees of the effective blocks in some sockets. -/
def operands (ident : Block → String) : List (String × Socket Block) → Operands
  | [] => []
  | (name, ⟨some b, _⟩) :: rest => (name, expr ident b) :: operands ident rest
  | (name, ⟨none, some b⟩) :: rest => (name, expr ident b) :: operands ident rest
  | (_, ⟨none, none⟩) :: rest => operands ident rest

end

/-- The statements of the chains inside a block, by their names. -/
abbrev Inner := List (String × Coding (List Script.Statement))

/-- The statements of a chain; a missing one is empty. -/
def Inner.get (inner : Inner) (name : String) : Coding (List Script.Statement) :=
  (inner.lookup name).getD (return [])

def repeatTree (b : Block) (operands : Names → Operands) : Coding LoopTree :=
  match b.input? "TIMES" with
  | none => do
    let counter ← helper "count"
    return fun body => [countedTree counter zeroTree body]
  | some times =>
    if times.kind = "math_number" then do
      let counter ← helper "count"
      return fun body => [countedTree counter (times.numberField "NUM").tree body]
    else do
      let stop ← helper "repeat_end"
      let counter ← helper "count"
      let limit := (operands (← get)).get "TIMES" zeroTree
      return fun body => [.bind (declaration stop limit), countedTree counter (.var stop) body]

/-- A counting loop; bounds that are not all written down are computed before it. -/
def forTree (b : Block) (ident : String) (operands : Names → Operands) : Coding LoopTree :=
  match b.knownBound? "FROM" 0, b.knownBound? "TO" 0, b.knownBound? "BY" 1 with
  | some start, some stop, some step => return fun body => [rangeTree ident start stop step body]
  | _, _, _ => do
    let names ← get
    let s ← helper (ident ++ "_start")
    let e ← helper (ident ++ "_end")
    let i ← helper (ident ++ "_inc")
    let o := operands names
    return fun body =>
      rangeSetupTree s e i (o.get "FROM" zeroTree) (o.get "TO" zeroTree)
        (o.get "BY" (Number.tree 1)) ++ [computedRangeTree ident s e i body]

def branchCount (b : Block) : Nat :=
  b.sockets (min (b.mutationCount "elseif" + 1) (Word.limit - 1)) ["IF", "DO"]

def hasElse (b : Block) : Bool := 0 < b.mutationCount "else" ∨ b.statements.contains "ELSE"

def branchesTree (operands : Names → Operands) (inner : Inner) (indices : List Nat) :
    Coding (List (Script.Expr × List Script.Statement)) :=
  indices.mapM fun i => do
    let cond := (operands (← get)).get s!"IF{i}" (truthTree false)
    return (cond, ← inner.get s!"DO{i}")

def chooseTree (b : Block) (operands : Names → Operands) (inner : Inner) :
    Coding (List Script.Statement) := do
  let branches ← branchesTree operands inner (List.range b.branchCount)
  if b.hasElse then return [.branch branches (some (← inner.get "ELSE"))]
  else return [.branch branches none]

/-- The statements of a block after its mark. -/
def ownOf (variableOf : Block → String) (b : Block) (operands : Names → Operands) (inner : Inner) :
    Coding (List Script.Statement) :=
  match b.kind with
  | "capture" => return [callTree .capture []]
  | "autofocus" => return [callTree .autofocus [textTree b.focusOf.text]]
  | "wait_seconds" => return [callTree .waitSeconds [(b.numberField "SECONDS").tree]]
  | "move_stage" => do
    let steps := (operands (← get)).get "steps" zeroTree
    return [callTree .moveStage [textTree b.axisOf, textTree b.modeOf.text, steps]]
  | "move_stage_3d" => do
    let o := operands (← get)
    return [callTree .moveStage3d [textTree b.modeOf.text, o.get "x_steps" zeroTree,
      o.get "y_steps" zeroTree, o.get "z_steps" zeroTree]]
  | "text_print" => do
    return [callTree .print [(operands (← get)).get "TEXT" (textTree "")]]
  | "variables_set" => do
    let names ← get
    return [.bind (.assign (setTo (names.identOf (variableOf b))
      ((operands names).get "VALUE" zeroTree)))]
  | "math_change" => do
    let names ← get
    return [.bind (.assign (increase (names.identOf (variableOf b))
      ((operands names).get "DELTA" zeroTree)))]
  | "controls_if" => b.chooseTree operands inner
  | "controls_repeat" => do
    let counter ← helper "count"
    return [countedTree counter (b.numberField "TIMES").tree (← inner.get "DO")]
  | "controls_repeat_ext" => do
    let loop ← b.repeatTree operands
    return loop (← inner.get "DO")
  | "controls_whileUntil" => do
    let cond := (operands (← get)).get "BOOL" (truthTree false)
    let test := if b.field? "MODE" = some "UNTIL" then .unary .not cond else cond
    return [.whileLoop test (← inner.get "DO")]
  | "controls_for" => do
    let loop ← b.forTree ((← get).identOf (variableOf b)) operands
    return loop (← inner.get "DO")
  | "controls_flow_statements" =>
    return [if b.field? "FLOW" = some "CONTINUE" then .nextRound else .exitLoop]
  | _ => return []

mutual

def own (variableOf : Block → String) : Block → Coding (List Script.Statement)
  | ⟨id, kind, position, disabled, fields, values, ⟨statements⟩, mutation⟩ =>
    ownOf variableOf ⟨id, kind, position, disabled, fields, values, ⟨statements⟩, mutation⟩
      (fun names => operands (fun b => names.identOf (variableOf b)) values.entries)
      (inner variableOf statements)

/-- The statements of a chain, those of every enabled block directly after its mark. -/
def statementsOf (variableOf : Block → String) : List Block → Coding (List Script.Statement)
  | [] => return []
  | b :: rest =>
    if b.disabled then statementsOf variableOf rest
    else do
      let ss ← own variableOf b
      return (markTree b.id :: ss) ++ (← statementsOf variableOf rest)

def inner (variableOf : Block → String) : List (String × List Block) → Inner
  | [] => []
  | (name, c) :: rest => (name, statementsOf variableOf c) :: inner variableOf rest

end

/-- The statements of a block in a stack; a value there is computed and dropped. -/
def itemTree (variableOf : Block → String) (b : Block) : Coding (List Script.Statement) :=
  if Shape.ofKind? b.kind = some .value then do
    let names ← get
    return [.eval (b.expr fun c => names.identOf (variableOf c))]
  else do return markTree b.id :: (← b.own variableOf)

end Block

namespace Workspace

def stackScript (w : Workspace) (stack : List Block) : Coding (List Script.Statement) := do
  let parts ← (stack.filter (!·.disabled)).mapM (Block.itemTree w.variableOf)
  return parts.flatten

/-- The script of a workspace: the declarations of the variables, and then the stacks in running
order. -/
def script (w : Workspace) : Script.Program :=
  headerTree w.names ++ ((w.orderedStacks.mapM w.stackScript).run w.names).1.flatten

end Workspace

end ScopeBlocks
