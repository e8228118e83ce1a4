import ScopeBlocks.Script.Grammar
import ScopeBlocks.Text.Position

/-! Scripts as written turned into checked ones. A text of the right form is refused for three reasons
only: a variable named like a primitive, a call of something else, a jump outside of a loop. The first
one in reading order is reported. -/
namespace ScopeBlocks.Script

inductive ParseError where
  | form
  | reservedName (name : String) (position : Text.Position)
  | unknownFunction (name : String) (position : Text.Position)
  | outsideLoop (word : Keyword) (position : Text.Position)
  deriving DecidableEq, Repr

def ParseError.message : ParseError → String
  | .form => "Parse error: syntax error"
  | .reservedName name p => "Parse error: '" ++ name ++ "' is a reserved name at " ++ p.text
  | .unknownFunction name p => "Parse error: Unknown function '" ++ name ++ "' at " ++ p.text
  | .outsideLoop word p => "Parse error: '" ++ word.text ++ "' outside of a loop at " ++ p.text

namespace Surface

/-- The name of a variable, which no primitive may have. -/
def Located.variable (source : List Char) (x : Located) : Except ParseError String :=
  match Primitive.ofName? x.text with
  | some _ => .error (.reservedName x.text (.of source x.place))
  | none => .ok x.text

def Located.primitive (source : List Char) (x : Located) : Except ParseError Primitive :=
  match Primitive.ofName? x.text with
  | some p => .ok p
  | none => .error (.unknownFunction x.text (.of source x.place))

mutual

def Expr.check (source : List Char) : Expr → Except ParseError Script.Expr
  | .literal v => .ok (.literal v)
  | .name x => do return .var (← x.variable source)
  | .call callee args => do
    let p ← callee.primitive source
    return .call p (← checkArgs source args)
  | .member object field => do return .member (← object.check source) field
  | .unary op operand => do return .unary op (← operand.check source)
  | .binary op left right => do
    let l ← left.check source
    return .binary op l (← right.check source)

def Expr.checkArgs (source : List Char) : List Expr → Except ParseError (List Script.Expr)
  | [] => .ok []
  | e :: rest => do
    let x ← e.check source
    return x :: (← checkArgs source rest)

end

def Expr.check? (source : List Char) : Option Expr → Except ParseError (Option Script.Expr)
  | none => .ok none
  | some e => do return some (← e.check source)

def Assignment.check (source : List Char) (a : Assignment) :
    Except ParseError Script.Assignment := do
  let name ← a.target.variable source
  return ⟨name, a.op, ← a.value.check source⟩

def Assignment.check? (source : List Char) :
    Option Assignment → Except ParseError (Option Script.Assignment)
  | none => .ok none
  | some a => do return some (← a.check source)

def Binding.check (source : List Char) : Binding → Except ParseError Script.Binding
  | .declare target init => do
    let name ← target.variable source
    return .declare name (← Expr.check? source init)
  | .assign a => do return .assign (← a.check source)

def Binding.check? (source : List Char) :
    Option Binding → Except ParseError (Option Script.Binding)
  | none => .ok none
  | some b => do return some (← b.check source)

def Jump.statement : Jump → Script.Statement
  | .exitLoop => .exitLoop
  | .nextRound => .nextRound

mutual

/-- A statement, in a loop or outside of every loop. -/
def Statement.check (source : List Char) (inLoop : Bool) :
    Statement → Except ParseError Script.Statement
  | .bind b => do return .bind (← b.check source)
  | .eval e => do return .eval (← e.check source)
  | .branch branches otherwise => do
    let bs ← checkBranches source inLoop branches
    return .branch bs (← checkOtherwise source inLoop otherwise)
  | .whileLoop cond body => do
    let c ← cond.check source
    return .whileLoop c (← checkAll source true body)
  | .forLoop init cond update body => do
    let i ← Binding.check? source init
    let c ← Expr.check? source cond
    let u ← Assignment.check? source update
    return .forLoop i c u (← checkAll source true body)
  | .jump j place =>
    if inLoop then .ok j.statement else .error (.outsideLoop j.word (.of source place))

def Statement.checkAll (source : List Char) (inLoop : Bool) :
    List Statement → Except ParseError (List Script.Statement)
  | [] => .ok []
  | s :: rest => do
    let x ← s.check source inLoop
    return x :: (← checkAll source inLoop rest)

def Statement.checkBranches (source : List Char) (inLoop : Bool) :
    List (Expr × List Statement) → Except ParseError (List (Script.Expr × List Script.Statement))
  | [] => .ok []
  | (cond, body) :: rest => do
    let c ← cond.check source
    let b ← checkAll source inLoop body
    return (c, b) :: (← checkBranches source inLoop rest)

def Statement.checkOtherwise (source : List Char) (inLoop : Bool) :
    Option (List Statement) → Except ParseError (Option (List Script.Statement))
  | none => .ok none
  | some body => do return some (← checkAll source inLoop body)

end

end Surface

def parse (text : String) : Except ParseError Program :=
  let source := text.toList
  match Surface.Grammar.read? source with
  | some body => Surface.Statement.checkAll source false body
  | none => .error .form

end ScopeBlocks.Script
