import ScopeBlocks.Text.Quoted
import ScopeBlocks.Workspace.Names
import ScopeBlocks.Workspace.Planning

/-! Script text for the plan of a workspace. Every statement block announces itself by its mark before
its own lines; variables are declared at the top; loops that compute their bounds keep them in helper
variables of their own. -/
namespace ScopeBlocks

open Text (quote)

/-- A number as an operand: a negative one stands in parentheses. -/
def Number.operand (x : Number) : String := if x.isNegative then "(" ++ x.text ++ ")" else x.text

mutual

/-- A term as an operand: what is put together by an operator stands in parentheses. -/
def Term.code (names : Names) : Term → String
  | .number x => x.operand
  | .text s => quote s
  | .truth b => if b then "true" else "false"
  | .null => "null"
  | .var name => names.identOf name
  | .position axis => "get_position(" ++ quote axis ++ ")"
  | .sharpness => "get_sharpness_metric()"
  | .binary op left right =>
    "(" ++ left.code names ++ " " ++ op.text ++ " " ++ right.code names ++ ")"
  | .negate operand => "!(" ++ operand.code names ++ ")"
  | .join [] => quote ""
  | .join (part :: parts) => "(" ++ quote "" ++ joinCode names (part :: parts) ++ ")"
  | .prompt true message => "prompt(" ++ message.code names ++ ", \"number\")"
  | .prompt false message => "prompt(" ++ message.code names ++ ")"

def joinCode (names : Names) : List Term → String
  | [] => ""
  | part :: rest => " + " ++ part.code names ++ joinCode names rest

end

/-- Lines of code, and the names that are taken after them. -/
abbrev Coding := StateM Names

def helper (base : String) : Coding String := fun names => names.distinct base

def indented (lines : List String) : List String := lines.map ("  " ++ ·)

def countedHead (counter times : String) : String :=
  "for (var " ++ counter ++ " = 0; " ++ counter ++ " < " ++ times ++ "; " ++ counter ++ " += 1) \x7b"

/-- The head of a loop over known bounds: upwards or downwards as they lie, by the size of the step. -/
def rangeHead (ident : String) (start stop step : Number) : String :=
  let (compare, change) := if start.le stop then (" <= ", " += ") else (" >= ", " -= ")
  "for (" ++ ident ++ " = " ++ start.text ++ "; " ++ ident ++ compare ++ stop.text ++ "; " ++ ident ++
    change ++ step.abs.text ++ ") \x7b"

/-- The lines before a loop over computed bounds: the step is given the sign in which they lie. -/
def rangeSetup (start stop step : String) (startCode stopCode stepCode : String) : List String :=
  let flip := "  " ++ step ++ " = -" ++ step ++ ";"
  ["var " ++ start ++ " = " ++ startCode ++ ";", "var " ++ stop ++ " = " ++ stopCode ++ ";",
    "var " ++ step ++ " = " ++ stepCode ++ ";",
    "if (" ++ step ++ " < 0) \x7b", flip, "\x7d",
    "if (" ++ start ++ " > " ++ stop ++ ") \x7b", flip, "\x7d"]

def computedRangeHead (ident start stop step : String) : String :=
  "for (" ++ ident ++ " = " ++ start ++ "; ((" ++ step ++ " >= 0) && (" ++ ident ++ " <= " ++ stop ++
    ")) || ((" ++ step ++ " < 0) && (" ++ ident ++ " >= " ++ stop ++ ")); " ++ ident ++ " += " ++ step ++
    ") \x7b"

def Count.lines : Count → Coding (List String)
  | .fixed times => do
    let counter ← helper "count"
    return [countedHead counter times.operand]
  | .computed times => do
    let stop ← helper "repeat_end"
    let counter ← helper "count"
    return ["var " ++ stop ++ " = " ++ times.code (← get) ++ ";", countedHead counter stop]

def Bounds.lines (ident : String) : Bounds → Coding (List String)
  | .fixed start stop step => return [rangeHead ident start stop step]
  | .computed start stop step => do
    let names ← get
    let s ← helper (ident ++ "_start")
    let e ← helper (ident ++ "_end")
    let i ← helper (ident ++ "_inc")
    return rangeSetup s e i (start.code names) (stop.code names) (step.code names) ++
      [computedRangeHead ident s e i]

mutual

def Action.lines : Action → Coding (List String)
  | .capture => return ["capture();"]
  | .autofocus focus => return ["autofocus(" ++ quote focus.text ++ ");"]
  | .wait seconds => return ["wait_seconds(" ++ seconds.operand ++ ");"]
  | .moveStage axis mode steps => return ["move_stage(" ++ quote axis ++ ", " ++ quote mode.text ++
      ", " ++ steps.code (← get) ++ ");"]
  | .moveStage3d mode x y z => do
    let names ← get
    return ["move_stage_3d(" ++ quote mode.text ++ ", " ++ x.code names ++ ", " ++ y.code names ++
      ", " ++ z.code names ++ ");"]
  | .print text => return ["print(" ++ text.code (← get) ++ ");"]
  | .set name value => do
    let names ← get
    return [names.identOf name ++ " = " ++ value.code names ++ ";"]
  | .change name delta => do
    let names ← get
    return [names.identOf name ++ " += " ++ delta.code names ++ ";"]
  | .choose branches otherwise => do
    let lines ← branchLines "if (" branches
    return lines ++ (← otherwiseLines otherwise) ++ ["\x7d"]
  | .countedLoop count body => do
    let head ← count.lines
    return head ++ (← chainLines body) ++ ["\x7d"]
  | .whileLoop negated cond body => do
    let code := cond.code (← get)
    let head := "while (" ++ (if negated then "!(" ++ code ++ ")" else code) ++ ") \x7b"
    return head :: (← chainLines body) ++ ["\x7d"]
  | .rangeLoop name bounds body => do
    let head ← bounds.lines ((← get).identOf name)
    return head ++ (← chainLines body) ++ ["\x7d"]
  | .exitLoop => return ["break;"]
  | .nextRound => return ["continue;"]

/-- The lines of a chain, one step further in. -/
def chainLines : List (String × Action) → Coding (List String)
  | [] => return []
  | (id, action) :: rest => do
    let lines ← action.lines
    return indented (("mark(" ++ quote id ++ ");") :: lines) ++ (← chainLines rest)

/-- The branches of a choice, the first one opened by the given word. -/
def branchLines (word : String) : List (Term × List (String × Action)) → Coding (List String)
  | [] => return []
  | (cond, body) :: rest => do
    let head := word ++ cond.code (← get) ++ ") \x7b"
    let lines ← chainLines body
    return head :: lines ++ (← branchLines "\x7d else if (" rest)

def otherwiseLines : Option (List (String × Action)) → Coding (List String)
  | none => return []
  | some body => return "\x7d else \x7b" :: (← chainLines body)

end

mutual

/-- The ids of the blocks inside an action, in running order. -/
def Action.ids : Action → List String
  | .choose branches otherwise => branchIds branches ++ otherwiseIds otherwise
  | .countedLoop _ body => chainIds body
  | .whileLoop _ _ body => chainIds body
  | .rangeLoop _ _ body => chainIds body
  | _ => []

def chainIds : List (String × Action) → List String
  | [] => []
  | (id, action) :: rest => id :: action.ids ++ chainIds rest

def branchIds : List (Term × List (String × Action)) → List String
  | [] => []
  | (_, body) :: rest => chainIds body ++ branchIds rest

def otherwiseIds : Option (List (String × Action)) → List String
  | none => []
  | some body => chainIds body

end

def Item.lines : Item → Coding (List String)
  | .value term => return [term.code (← get) ++ ";"]
  | .action id a => return ("mark(" ++ quote id ++ ");") :: (← a.lines)

def Item.ids : Item → List String
  | .value _ => []
  | .action id a => id :: a.ids

def unlines (lines : List String) : String := String.join (lines.map (· ++ "\n"))

def stackLines : List Item → Coding (List String)
  | [] => return []
  | item :: rest => do
    let lines ← item.lines
    return lines ++ (← stackLines rest)

/-- The texts of stacks, a blank line between any two. -/
def stackTexts : List (List Item) → Coding (List String)
  | [] => return []
  | stack :: rest => do
    let text := unlines (← stackLines stack)
    return text :: (← stackTexts rest)

/-- A script and the ids of the blocks that it marks. -/
structure Compiled where
  code : String
  ids : List String
  deriving DecidableEq, Repr

def Compiled.empty : Compiled := ⟨"", []⟩

namespace Workspace

def namesVariable (b : Block) : Bool :=
  ["variables_get", "variables_set", "math_change", "controls_for"].contains b.kind

/-- The variables in order of first reference, and then those that no block names. -/
def variableNames (w : Workspace) : List String :=
  let used := (w.orderedStacks.flatMap Block.chainActive).filter namesVariable
  used.map w.variableOf ++ w.vars.map Variable.name

def names (w : Workspace) : Names := .ofVariables w.variableNames

def header (names : Names) : String :=
  match names.declared with
  | [] => ""
  | idents => unlines (idents.map fun ident => "var " ++ ident ++ " = null;") ++ "\n"

def compile (w : Workspace) : Except CompileError Compiled := do
  let plans ← w.plan
  let texts := ((stackTexts plans).run w.names).1
  return ⟨header w.names ++ "\n".intercalate texts, plans.flatMap (·.flatMap Item.ids)⟩

end Workspace

end ScopeBlocks
