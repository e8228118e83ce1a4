import ScopeBlocks.Script.Error
import ScopeBlocks.Script.Syntax

/-! What operators do to values. A failure passes through arithmetic unchanged, compares false and
joins a text by its own text. -/
namespace ScopeBlocks.Script

def UnaryOp.apply : UnaryOp → Value → Except Fault Value
  | .not, v => .ok (.bool (!v.truthy))
  | .neg, .number x => .ok (.number x.neg)
  | .neg, .error message => .ok (.error message)
  | .neg, v => .error (.negate v.kind)

namespace Value

/-- Numbers are added and texts joined to anything; of two failures the left one is kept. -/
def add : Value → Value → Except Fault Value
  | .number x, .number y => .ok (.number (x.add y))
  | .string s, v => .ok (.string (s ++ v.text))
  | v, .string s => .ok (.string (v.text ++ s))
  | .error message, _ => .ok (.error message)
  | _, .error message => .ok (.error message)
  | v, w => .error (.add v.kind w.kind)

def arithmetic (f : Number → Number → Number) : Value → Value → Except Fault Value
  | .number x, .number y => .ok (.number (f x y))
  | .error message, _ => .ok (.error message)
  | _, .error message => .ok (.error message)
  | v, w => .error (.arithmetic v.kind w.kind)

/-- Numbers and texts have an order; not-a-number and failures stand in none. -/
def compareBy (accept : Ordering → Bool) : Value → Value → Except Fault Value
  | .number x, .number y => .ok (.bool ((x.compare? y).any accept))
  | .string s, .string t => .ok (.bool (accept (compare s t)))
  | .error _, _ => .ok (.bool false)
  | _, .error _ => .ok (.bool false)
  | v, w => .error (.order v.kind w.kind)

end Value

def BinaryOp.apply : BinaryOp → Value → Value → Except Fault Value
  | .add, v, w => v.add w
  | .sub, v, w => v.arithmetic Number.sub w
  | .mul, v, w => v.arithmetic Number.mul w
  | .div, v, w => v.arithmetic Number.div w
  | .rem, v, w => v.arithmetic Number.rem w
  | .eq, v, w => .ok (.bool (v.equals w))
  | .ne, v, w => .ok (.bool (!v.equals w))
  | .lt, v, w => v.compareBy Ordering.isLT w
  | .le, v, w => v.compareBy Ordering.isLE w
  | .gt, v, w => v.compareBy Ordering.isGT w
  | .ge, v, w => v.compareBy Ordering.isGE w
  | .and, v, w => .ok (.bool (v.truthy && w.truthy))
  | .or, v, w => .ok (.bool (v.truthy || w.truthy))

end ScopeBlocks.Script
