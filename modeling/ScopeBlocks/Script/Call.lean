import ScopeBlocks.Script.Error

/-! Calls that are answered from outside, made from a primitive and its argument values once these
have been checked. -/
namespace ScopeBlocks.Script

inductive Axis where
  | x | y | z
  deriving DecidableEq, Repr

inductive MoveMode where
  | relative | absolute
  deriving DecidableEq, Repr

inductive Focus where
  | fast | medium | fine
  deriving DecidableEq, Repr

inductive DeviceCall where
  | capture
  | getPosition (axis : Axis)
  | autofocus (focus : Focus)
  | sharpness
  | moveStage (axis : Axis) (mode : MoveMode) (amount : Number)
  | moveStage3d (mode : MoveMode) (x y z : Number)
  deriving DecidableEq, Repr

inductive AsyncCall where
  | wait (seconds : Number)
  | device (call : DeviceCall)
  deriving DecidableEq, Repr

def Axis.upper : Axis → String
  | .x => "X"
  | .y => "Y"
  | .z => "Z"

def Axis.lower : Axis → String
  | .x => "x"
  | .y => "y"
  | .z => "z"

def MoveMode.text : MoveMode → String
  | .relative => "relative"
  | .absolute => "absolute"

def MoveMode.isAbsolute : MoveMode → Bool
  | .absolute => true
  | .relative => false

def Focus.text : Focus → String
  | .fast => "fast"
  | .medium => "medium"
  | .fine => "fine"

def DeviceCall.text : DeviceCall → String
  | .capture => "capture()"
  | .getPosition axis => "get_position(" ++ axis.lower ++ ")"
  | .autofocus focus => "autofocus(" ++ focus.text ++ ")"
  | .sharpness => "get_sharpness_metric()"
  | .moveStage axis mode amount =>
    "move_stage(" ++ axis.upper ++ ", " ++ mode.text ++ ", " ++ amount.text ++ ")"
  | .moveStage3d mode x y z =>
    "move_stage_3d(" ++ mode.text ++ ", " ++ x.text ++ ", " ++ y.text ++ ", " ++ z.text ++ ")"

def AsyncCall.text : AsyncCall → String
  | .wait seconds => "wait_seconds(" ++ seconds.text ++ ")"
  | .device call => call.text

namespace AsyncCall

/-- The value as a number that is neither infinite nor not-a-number. -/
def finite : Value → Except Misuse Number
  | .number x => if x.isFinite then .ok x else .error (.notFinite .number)
  | v => .error (.notFinite v.kind)

def textOf : Value → Except Misuse String
  | .string s => .ok s
  | v => .error (.notText v.kind)

def upperCase (s : String) : String := s.map Char.toUpper

def lowerCase (s : String) : String := s.map Char.toLower

def axis (v : Value) : Except Misuse Axis := do
  match upperCase (← textOf v) with
  | "X" => return .x
  | "Y" => return .y
  | "Z" => return .z
  | other => throw (.unknownAxis other)

def mode (v : Value) : Except Misuse MoveMode := do
  match lowerCase (← textOf v) with
  | "relative" => return .relative
  | "absolute" => return .absolute
  | other => throw (.unknownMode other)

def focus (v : Value) : Except Misuse Focus := do
  match lowerCase (← textOf v) with
  | "fast" => return .fast
  | "medium" => return .medium
  | "fine" => return .fine
  | other => throw (.unknownFocus other)

/-- A wait lasts from no time to the longest allowed one. -/
def seconds (v : Value) : Except Misuse Number := do
  let x ← finite v
  if Number.zero.le x && x.le (.ofNat maxWaitSeconds) then return x
  else throw (.secondsOutOfRange x)

/-- The call of a primitive on argument values, which are checked in order. -/
def ofArguments : Primitive → List Value → Except Misuse AsyncCall
  | .waitSeconds, [v] => do return .wait (← seconds v)
  | .capture, [] => .ok (.device .capture)
  | .getPosition, [v] => do return .device (.getPosition (← axis v))
  | .autofocus, [v] => do return .device (.autofocus (← focus v))
  | .getSharpnessMetric, [] => .ok (.device .sharpness)
  | .moveStage, [a, m, d] => do return .device (.moveStage (← axis a) (← mode m) (← finite d))
  | .moveStage3d, [m, x, y, z] => do
    return .device (.moveStage3d (← mode m) (← finite x) (← finite y) (← finite z))
  | .print, _ | .prompt, _ | .mark, _ => .error .notAsync
  | .waitSeconds, vs => .error (.arity 1 vs.length)
  | .capture, vs => .error (.arity 0 vs.length)
  | .getPosition, vs => .error (.arity 1 vs.length)
  | .autofocus, vs => .error (.arity 1 vs.length)
  | .getSharpnessMetric, vs => .error (.arity 0 vs.length)
  | .moveStage, vs => .error (.arity 3 vs.length)
  | .moveStage3d, vs => .error (.arity 4 vs.length)

end AsyncCall

end ScopeBlocks.Script
