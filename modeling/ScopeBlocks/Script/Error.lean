import ScopeBlocks.Script.Primitive
import ScopeBlocks.Script.Value

/-! What can go wrong while a script runs, each cause with its message. -/
namespace ScopeBlocks.Script

inductive Misuse where
  | arity (expected given : Nat)
  | notFinite (given : Value.Kind)
  | notText (given : Value.Kind)
  | secondsOutOfRange (seconds : Number)
  | unknownAxis (text : String)
  | unknownMode (text : String)
  | unknownFocus (text : String)
  | notAsync
  | printArity
  | promptShape
  | markShape
  deriving DecidableEq, Repr

/-- The longest wait that a script may ask for, in seconds. -/
def maxWaitSeconds : Nat := 600

def Misuse.message : Misuse → String
  | .arity expected given => s!"takes exactly {expected} argument(s), got {given}"
  | .notFinite given => "expected a finite number, got " ++ given.name
  | .notText given => "expected a string, got " ++ given.name
  | .secondsOutOfRange seconds =>
    s!"seconds must be between 0 and {maxWaitSeconds}, got " ++ seconds.text
  | .unknownAxis text => "unknown axis '" ++ text ++ "'"
  | .unknownMode text => "unknown move mode '" ++ text ++ "'"
  | .unknownFocus text => "unknown autofocus kind '" ++ text ++ "'"
  | .notAsync => "not an asynchronous primitive"
  | .printArity => "takes at most 1 argument"
  | .promptShape => "expected a message and an optional \"text\" or \"number\" kind"
  | .markShape => "expected a single block id string"

inductive Fault where
  | unbound (name : String)
  | undeclared (name : String)
  | noField (field : String) (kind : Value.Kind)
  | negate (kind : Value.Kind)
  | add (left right : Value.Kind)
  | arithmetic (left right : Value.Kind)
  | order (left right : Value.Kind)
  | outsideLoop (word : Keyword)
  deriving DecidableEq, Repr

def Fault.message : Fault → String
  | .unbound name => "Undefined variable: " ++ name
  | .undeclared name => "Variable '" ++ name ++ "' not defined"
  | .noField field kind => "Cannot access field '" ++ field ++ "' on " ++ kind.name
  | .negate kind => "Cannot negate " ++ kind.name
  | .add left right => "Cannot add " ++ left.name ++ " and " ++ right.name
  | .arithmetic left right =>
    "Cannot perform numeric operation on " ++ left.name ++ " and " ++ right.name
  | .order left right => "Cannot compare " ++ left.name ++ " and " ++ right.name
  | .outsideLoop word => word.text ++ " outside of a loop"

/-- What ends a run before its last statement. -/
inductive Error where
  | fault (cause : Fault)
  | misuse (primitive : Primitive) (cause : Misuse)
  deriving DecidableEq, Repr

def Error.message : Error → String
  | .fault cause => "Runtime error: " ++ cause.message
  | .misuse primitive cause => "Invalid call to " ++ primitive.name ++ "(): " ++ cause.message

def notSuspendedMessage : String := "No asynchronous primitive is awaiting a result"

end ScopeBlocks.Script
