import ScopeBlocks.Script.Parse
import ScopeBlocks.Script.Rules

/-! Scripts built from the pairs that the rules of the grammar leave. The pairs of a rule are gone through
in order; where one is missing, or is not one that the rule can have left, the builder says so. -/
namespace ScopeBlocks.Script.Rules

/-- What pairs can be like that no text leaves. -/
inductive Defect where
  | missing (what : String) (symbol : Symbol)
  | unexpectedStatement (symbol : Symbol)
  | unexpectedIfClause
  | unexpectedForClause
  | unexpectedExpression (symbol : Symbol)
  | unknownOperator (text : String)
  | invalidNumber (text : String)
  deriving DecidableEq, Repr

def Defect.text : Defect → String
  | .missing what symbol => "Expected " ++ what ++ " in " ++ symbol.text
  | .unexpectedStatement symbol => "Unexpected statement " ++ symbol.text
  | .unexpectedIfClause => "Unexpected if clause"
  | .unexpectedForClause => "Unexpected for clause"
  | .unexpectedExpression symbol => "Unexpected expression " ++ symbol.text
  | .unknownOperator text => "Unknown operator '" ++ text ++ "'"
  | .invalidNumber text => "Invalid number: " ++ text

/-- Why no script is built: the script is refused, or the pairs have a defect. -/
inductive BuildError where
  | refused (e : ParseError)
  | defect (d : Defect) (position : Text.Position)
  deriving DecidableEq, Repr

def BuildError.message : BuildError → String
  | .refused e => e.message
  | .defect d position => "Parse error: " ++ d.text ++ " at " ++ position.text

abbrev Built (α : Type) := Except BuildError α

/-- A pair with what it comes to as an expression, and as a statement and as a block in so many loops. -/
structure Part where
  pair : Pair
  inner : List Part
  expr : Built Expr
  statement : Nat → Built Statement
  block : Nat → Built (List Statement)

namespace Symbol

/-- The words that only hold a statement together. -/
def isStructural : Symbol → Bool
  | .keyword word => word != .trueWord && word != .falseWord && word != .nullWord
  | _ => false

end Symbol

/-- The parts without the words between them. -/
def significant (parts : List Part) : List Part := parts.filter fun p => !p.pair.symbol.isStructural

def BinaryOp.ofText? : String → Option BinaryOp
  | "||" => some .or
  | "&&" => some .and
  | "==" => some .eq
  | "!=" => some .ne
  | "<" => some .lt
  | "<=" => some .le
  | ">" => some .gt
  | ">=" => some .ge
  | "+" => some .add
  | "-" => some .sub
  | "*" => some .mul
  | "/" => some .div
  | "%" => some .rem
  | _ => none

def AssignOp.ofText : String → AssignOp
  | "+=" => .add
  | "-=" => .sub
  | _ => .set

namespace Pair

variable (source : List Char) (p : Pair)

def string : String := String.ofList p.text

def fail {α : Type} (d : Defect) : Built α := .error (.defect d (.of source p.place))

def missing {α : Type} (what : String) : Built α := p.fail source (.missing what p.symbol)

/-- The name of a variable. -/
def bindingName : Built String :=
  ((⟨p.string, p.place⟩ : Surface.Located).variable source).mapError .refused

/-- The operators of a chain with their right operands. -/
def operands : Expr → List Part → Built Expr
  | left, [] => .ok left
  | left, op :: rest =>
    match BinaryOp.ofText? op.pair.string with
    | none => op.pair.fail source (.unknownOperator op.pair.string)
    | some o =>
      match rest with
      | [] => p.missing source "right operand"
      | operand :: rest => do operands (.binary o left (← operand.expr)) rest

def chainOf : List Part → Built Expr
  | [] => p.missing source "operand"
  | first :: rest => do p.operands source (← first.expr) rest

/-- Signs and the operand after them. -/
def signsOf : List UnaryOp → Option Expr → List Part → Built Expr
  | _, none, [] => p.missing source "operand"
  | ops, some e, [] => .ok (ops.foldl (fun e op => .unary op e) e)
  | ops, operand, part :: rest =>
    if part.pair.symbol = .unaryOp then
      signsOf ((if part.pair.string = "!" then .not else .neg) :: ops) operand rest
    else do signsOf ops (some (← part.expr)) rest

def fieldsOf : List Part → Built Expr
  | [] => p.missing source "operand"
  | first :: fields => do return fields.foldl (fun e field => .member e field.pair.string) (← first.expr)

def exprs : List Part → Built (List Expr)
  | [] => .ok []
  | part :: rest => do
    let e ← part.expr
    return e :: (← exprs rest)

def callOf : List Part → Built Expr
  | [] => p.missing source "function name"
  | callee :: args => do
    let primitive ← ((⟨callee.pair.string, callee.pair.place⟩ : Surface.Located).primitive
      source).mapError .refused
    return .call primitive (← exprs args)

def exprOf (parts : List Part) : Built Expr :=
  match p.symbol with
  | .chain _ => p.chainOf source parts
  | .unary => p.signsOf source [] none parts
  | .fields => p.fieldsOf source parts
  | .number =>
    match Number.readChars? p.text with
    | some x => .ok (.literal (.number x))
    | none => p.fail source (.invalidNumber p.string)
  | .string =>
    let raw := (parts.head?.map fun part => part.pair.text).getD []
    .ok (.literal (.string (String.ofList (Text.unescape raw))))
  | .keyword .trueWord => .ok (.literal (.bool true))
  | .keyword .falseWord => .ok (.literal (.bool false))
  | .keyword .nullWord => .ok (.literal .null)
  | .ident => do return .var (← p.bindingName source)
  | .call => p.callOf source parts
  | s => p.fail source (.unexpectedExpression s)

def declarationOf (parts : List Part) : Built Binding :=
  match significant parts with
  | [] => p.missing source "variable name"
  | name :: rest => do
    let x ← name.pair.bindingName source
    match rest with
    | [] => return .declare x none
    | init :: _ => return .declare x (some (← init.expr))

def assignmentOf (parts : List Part) : Built Assignment :=
  match parts with
  | [] => p.missing source "assignment target"
  | name :: rest => do
    let x ← name.pair.bindingName source
    match rest with
    | [] => p.missing source "assignment operator"
    | [_] => p.missing source "assigned value"
    | op :: value :: _ => return ⟨x, AssignOp.ofText op.pair.string, ← value.expr⟩

/-- A condition and the block that it guards. -/
def guardOf (loops : Nat) : List Part → Built (Expr × List Statement)
  | [] => p.missing source "condition"
  | [_] => p.missing source "block"
  | cond :: body :: _ => do
    let c ← cond.expr
    return (c, ← body.block loops)

end Pair

variable (source : List Char)

/-- The branches of a choice, and the last one of those without a condition. -/
def branchesOf (loops : Nat) :
    List Part → Built (List (Expr × List Statement) × Option (List Statement))
  | [] => .ok ([], none)
  | part :: rest =>
    match part.pair.symbol with
    | .condBlock => do
      let branch ← part.pair.guardOf source loops part.inner
      let (branches, last) ← branchesOf loops rest
      return (branch :: branches, last)
    | .elseClause =>
      match significant part.inner with
      | [] => part.pair.missing source "block"
      | body :: _ => do
        let otherwise ← body.block loops
        let (branches, last) ← branchesOf loops rest
        return (branches, last.or (some otherwise))
    | _ => part.pair.fail source .unexpectedIfClause

/-- The parts of a counting loop so far. -/
structure Clauses where
  init : Option Binding
  cond : Option Expr
  update : Option Assignment
  body : Option (List Statement)

def bindingOf (part : Part) : Built Binding :=
  if part.pair.symbol = .varBinding then part.pair.declarationOf source part.inner
  else do return .assign (← part.pair.assignmentOf source part.inner)

def clauseOf (loops : Nat) (c : Clauses) (part : Part) : Built Clauses :=
  match part.pair.symbol with
  | .forInit =>
    match part.inner with
    | [] => .ok c
    | init :: _ => do return { c with init := some (← bindingOf source init) }
  | .forCond =>
    match part.inner with
    | [] => .ok c
    | cond :: _ => do return { c with cond := some (← cond.expr) }
  | .forUpdate =>
    match part.inner with
    | [] => .ok c
    | update :: _ => do
      return { c with update := some (← update.pair.assignmentOf source update.inner) }
  | .block => do return { c with body := some (← part.block (loops + 1)) }
  | _ => part.pair.fail source .unexpectedForClause

def clausesOf (loops : Nat) : Clauses → List Part → Built Clauses
  | c, [] => .ok c
  | c, part :: rest => do clausesOf loops (← clauseOf source loops c part) rest

def jumpOf (p : Pair) (loops : Nat) (jump : Surface.Jump) : Built Statement :=
  if loops = 0 then .error (.refused (.outsideLoop jump.word (.of source p.place)))
  else .ok jump.statement

def statementOf (p : Pair) (parts : List Part) (loops : Nat) : Built Statement :=
  match p.symbol with
  | .varBinding => do return .bind (← p.declarationOf source parts)
  | .assign => do return .bind (.assign (← p.assignmentOf source parts))
  | .exprStmt =>
    match parts with
    | [] => p.missing source "expression"
    | e :: _ => do return .eval (← e.expr)
  | .ifStmt => do
    let (branches, last) ← branchesOf source loops (significant parts)
    return .branch branches last
  | .whileStmt => do
    let (cond, body) ← p.guardOf source (loops + 1) (significant parts)
    return .whileLoop cond body
  | .forStmt => do
    let c ← clausesOf source loops ⟨none, none, none, none⟩ (significant parts)
    match c.body with
    | none => p.missing source "loop body"
    | some body => return .forLoop c.init c.cond c.update body
  | .breakStmt => jumpOf source p loops .exitLoop
  | .continueStmt => jumpOf source p loops .nextRound
  | s => p.fail source (.unexpectedStatement s)

/-- Statements up to the end of a block or of the text. -/
def blockOf (loops : Nat) : List Part → Built (List Statement)
  | [] => .ok []
  | part :: rest =>
    if part.pair.symbol = .ending then blockOf loops rest
    else do
      let s ← part.statement loops
      return s :: (← blockOf loops rest)

mutual

def Pair.part : Pair → Part
  | ⟨symbol, place, text, inner⟩ =>
    let p : Pair := ⟨symbol, place, text, inner⟩
    let parts := partsOf inner
    { pair := p
      inner := parts
      expr := p.exprOf source parts
      statement := statementOf source p parts
      block := fun loops => blockOf loops parts }

def partsOf : List Pair → List Part
  | [] => []
  | p :: rest => p.part :: partsOf rest

end

/-- The script of the pairs of a text. -/
def build : List Pair → Built Program
  | [] => .ok []
  | program :: _ => blockOf 0 (partsOf source program.inner)

end ScopeBlocks.Script.Rules
