import ScopeBlocks.Script.Call
import ScopeBlocks.Script.Syntax

/-! Plans: what the blocks of a workspace ask for, once every kind, field and socket is understood, and
the reasons for which there is none. -/
namespace ScopeBlocks

inductive Term where
  | number (value : Number)
  | text (value : String)
  | truth (value : Bool)
  | null
  | var (name : String)
  | position (axis : String)
  | sharpness
  | binary (op : Script.BinaryOp) (left right : Term)
  | negate (operand : Term)
  | join (parts : List Term)
  | prompt (numeric : Bool) (message : Term)
  deriving Repr, Inhabited

/-- How often a counted loop runs: a number that is known, or one computed at its entry. -/
inductive Count where
  | fixed (times : Number)
  | computed (times : Term)
  deriving Repr

/-- The bounds and the step of a counting loop, known or computed at its entry. -/
inductive Bounds where
  | fixed (start stop step : Number)
  | computed (start stop step : Term)
  deriving Repr

/-- What a statement block asks for; the actions inside it have the ids of their blocks. -/
inductive Action where
  | capture
  | autofocus (focus : Script.Focus)
  | wait (seconds : Number)
  | moveStage (axis : String) (mode : Script.MoveMode) (steps : Term)
  | moveStage3d (mode : Script.MoveMode) (x y z : Term)
  | print (text : Term)
  | set (name : String) (value : Term)
  | change (name : String) (delta : Term)
  | choose (branches : List (Term × List (String × Action)))
      (otherwise : Option (List (String × Action)))
  | countedLoop (count : Count) (body : List (String × Action))
  | whileLoop (negated : Bool) (cond : Term) (body : List (String × Action))
  | rangeLoop (name : String) (bounds : Bounds) (body : List (String × Action))
  | exitLoop
  | nextRound
  deriving Repr, Inhabited

/-- A stack holds statements and values that are computed and dropped. -/
inductive Item where
  | value (term : Term)
  | action (id : String) (action : Action)
  deriving Repr

inductive Misplacement where
  | asStatement | asValue
  deriving DecidableEq, Repr

inductive CompileError where
  | unknownBlock (id kind : String)
  | misplaced (id kind : String) (context : Misplacement)
  | unsupportedOperator (id op : String)
  | tooManySockets (id : String) (count : Nat)
  deriving DecidableEq, Repr

/-- Most numbered sockets that one block may have. -/
def maxSockets : Nat := 256

def Misplacement.text : Misplacement → String
  | .asStatement => "as a statement"
  | .asValue => "as a value"

def CompileError.message : CompileError → String
  | .unknownBlock id kind => "Unknown block type '" ++ kind ++ "' (block " ++ id ++ ")"
  | .misplaced id kind context =>
    "Block " ++ id ++ " (" ++ kind ++ ") cannot be used " ++ context.text
  | .unsupportedOperator id op =>
    "Unsupported block option in " ++ id ++ ": arithmetic operator " ++ op
  | .tooManySockets id count =>
    "Unsupported block option in " ++ id ++ s!": {count} inputs (at most {maxSockets})"

end ScopeBlocks
