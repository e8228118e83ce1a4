import ScopeBlocks.Script.Token

/-! Scripts as they are written, before it is known which names are those of primitives. Names and
jumps keep the place where they stand. -/
namespace ScopeBlocks.Script.Surface

/-- A name or a jump where it stands. -/
structure Located where
  text : String
  place : List Char
  deriving Repr

inductive Expr where
  | literal (value : Value)
  | name (name : Located)
  | call (callee : Located) (args : List Expr)
  | member (object : Expr) (field : String)
  | unary (op : UnaryOp) (operand : Expr)
  | binary (op : BinaryOp) (left right : Expr)
  deriving Repr

structure Assignment where
  target : Located
  op : AssignOp
  value : Expr
  deriving Repr

inductive Binding where
  | declare (target : Located) (init : Option Expr)
  | assign (assignment : Assignment)
  deriving Repr

inductive Jump where
  | exitLoop | nextRound
  deriving DecidableEq, Repr

def Jump.word : Jump → Keyword
  | .exitLoop => .breakWord
  | .nextRound => .continueWord

inductive Statement where
  | bind (binding : Binding)
  | eval (expr : Expr)
  | branch (branches : List (Expr × List Statement)) (otherwise : Option (List Statement))
  | whileLoop (cond : Expr) (body : List Statement)
  | forLoop (init : Option Binding) (cond : Option Expr) (update : Option Assignment)
      (body : List Statement)
  | jump (jump : Jump) (place : List Char)
  deriving Repr

end ScopeBlocks.Script.Surface
