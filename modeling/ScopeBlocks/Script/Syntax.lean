import ScopeBlocks.Script.Primitive
import ScopeBlocks.Script.Value

/-! The syntax of scripts once their names and calls have been checked: every call is that of a
primitive, and the clauses of a counting loop are declarations or assignments. -/
namespace ScopeBlocks.Script

inductive UnaryOp where
  | not | neg
  deriving DecidableEq, Repr

inductive BinaryOp where
  | add | sub | mul | div | rem | eq | ne | lt | le | gt | ge | and | or
  deriving DecidableEq, Repr

inductive AssignOp where
  | set | add | sub
  deriving DecidableEq, Repr

def UnaryOp.text : UnaryOp → String
  | .not => "!"
  | .neg => "-"

def BinaryOp.text : BinaryOp → String
  | .add => "+"
  | .sub => "-"
  | .mul => "*"
  | .div => "/"
  | .rem => "%"
  | .eq => "=="
  | .ne => "!="
  | .lt => "<"
  | .le => "<="
  | .gt => ">"
  | .ge => ">="
  | .and => "&&"
  | .or => "||"

def AssignOp.text : AssignOp → String
  | .set => "="
  | .add => "+="
  | .sub => "-="

inductive Expr where
  | literal (value : Value)
  | var (name : String)
  | call (primitive : Primitive) (args : List Expr)
  | member (object : Expr) (field : String)
  | unary (op : UnaryOp) (operand : Expr)
  | binary (op : BinaryOp) (left right : Expr)
  deriving Repr, Inhabited

structure Assignment where
  name : String
  op : AssignOp
  value : Expr
  deriving Repr

/-- A statement that changes one variable. -/
inductive Binding where
  | declare (name : String) (init : Option Expr)
  | assign (assignment : Assignment)
  deriving Repr

inductive Statement where
  | bind (binding : Binding)
  | eval (expr : Expr)
  | branch (branches : List (Expr × List Statement)) (otherwise : Option (List Statement))
  | whileLoop (cond : Expr) (body : List Statement)
  | forLoop (init : Option Binding) (cond : Option Expr) (update : Option Assignment)
      (body : List Statement)
  | exitLoop
  | nextRound
  deriving Repr, Inhabited

abbrev Program := List Statement

end ScopeBlocks.Script
