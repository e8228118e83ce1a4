import ScopeBlocks.Script.Machine
import ScopeBlocks.Script.Parse

/-! Scripts as flat tables of statements, expressions and blocks that refer to each other by their indices.
The tables are filled while a script is checked: an expression after its operands, a statement after its
parts, a block statement by statement while it stands open. -/
namespace ScopeBlocks.Script.Indexed

inductive Expr where
  | literal (value : Value)
  | var (name : String)
  | call (primitive : Primitive) (args : List Nat)
  | member (object : Nat) (field : String)
  | unary (op : UnaryOp) (operand : Nat)
  | binary (op : BinaryOp) (left right : Nat)
  deriving Repr

inductive Statement where
  | declare (name : String) (init : Option Nat)
  | assign (name : String) (op : AssignOp) (value : Nat)
  | eval (expr : Nat)
  | branch (branches : List (Nat × Nat)) (otherwise : Option Nat)
  | whileLoop (cond body : Nat)
  | forLoop (init cond update : Option Nat) (body : Nat)
  | exitLoop
  | nextRound
  deriving Repr

/-- The block of the whole script is the first one. -/
structure Tables where
  statements : List Statement
  exprs : List Expr
  blocks : List (List Nat)
  deriving Repr

def Tables.empty : Tables := ⟨[], [], [[]]⟩

/-! Filling the tables. -/

abbrev Build := StateT Tables (Except ParseError)

namespace Build

variable {α : Type}

def check (r : Except ParseError α) : Build α := fun t => r.map fun a => (a, t)

def addExpr (e : Expr) : Build Nat := fun t =>
  .ok (t.exprs.length, { t with exprs := t.exprs ++ [e] })

def addStatement (s : Statement) : Build Nat := fun t =>
  .ok (t.statements.length, { t with statements := t.statements ++ [s] })

def newBlock : Build Nat := fun t => .ok (t.blocks.length, { t with blocks := t.blocks ++ [[]] })

/-- A new block, which is filled before anything else is done. -/
def block (fill : Nat → Build Unit) : Build Nat := do
  let b ← newBlock
  fill b
  return b

def pushTo (block statement : Nat) : Build Unit := fun t =>
  .ok ((), { t with blocks := t.blocks.modify block (· ++ [statement]) })

def part {β : Type} (build : β → Build Nat) : Option β → Build (Option Nat)
  | none => return none
  | some b => return some (← build b)

variable (source : List Char)

mutual

def expr : Surface.Expr → Build Nat
  | .literal v => addExpr (.literal v)
  | .name x => do addExpr (.var (← check (x.variable source)))
  | .call callee args => do
    let p ← check (callee.primitive source)
    addExpr (.call p (← exprs args))
  | .member object field => do addExpr (.member (← expr object) field)
  | .unary op operand => do addExpr (.unary op (← expr operand))
  | .binary op left right => do
    let l ← expr left
    addExpr (.binary op l (← expr right))

def exprs : List Surface.Expr → Build (List Nat)
  | [] => return []
  | e :: rest => do
    let i ← expr e
    return i :: (← exprs rest)

end

def assignment (a : Surface.Assignment) : Build Nat := do
  let name ← check (a.target.variable source)
  addStatement (.assign name a.op (← expr source a.value))

def binding : Surface.Binding → Build Nat
  | .declare target init => do
    let name ← check (target.variable source)
    addStatement (.declare name (← part (expr source) init))
  | .assign a => assignment source a

def jump : Surface.Jump → Statement
  | .exitLoop => .exitLoop
  | .nextRound => .nextRound

mutual

def statement (inLoop : Bool) : Surface.Statement → Build Nat
  | .bind b => binding source b
  | .eval e => do addStatement (.eval (← expr source e))
  | .branch bs otherwise => do
    let bs ← branches inLoop bs
    addStatement (.branch bs (← last inLoop otherwise))
  | .whileLoop cond body => do
    let c ← expr source cond
    addStatement (.whileLoop c (← block fun b => fill true b body))
  | .forLoop init cond update body => do
    let i ← part (binding source) init
    let c ← part (expr source) cond
    let u ← part (assignment source) update
    addStatement (.forLoop i c u (← block fun b => fill true b body))
  | .jump j place =>
    if inLoop then addStatement (jump j) else check (.error (.outsideLoop j.word (.of source place)))

/-- Builds statements, each of which is put into a block once it is there. -/
def fill (inLoop : Bool) (block : Nat) : List Surface.Statement → Build Unit
  | [] => return ()
  | s :: rest => do
    pushTo block (← statement inLoop s)
    fill inLoop block rest

def branches (inLoop : Bool) : List (Surface.Expr × List Surface.Statement) → Build (List (Nat × Nat))
  | [] => return []
  | (cond, body) :: rest => do
    let c ← expr source cond
    let b ← block fun b => fill inLoop b body
    return (c, b) :: (← branches inLoop rest)

def last (inLoop : Bool) : Option (List Surface.Statement) → Build (Option Nat)
  | none => return none
  | some body => do return some (← block fun b => fill inLoop b body)

end

end Build

/-- The tables of a text, or why it is refused. -/
def parse (text : String) : Except ParseError Tables :=
  let source := text.toList
  match Surface.Grammar.read? source with
  | some body => (Build.fill source false 0 body .empty).map (·.2)
  | none => .error .form

/-! What tables are to be like. -/

namespace Expr

def parts : Expr → List Nat
  | .literal _ | .var _ => []
  | .call _ args => args
  | .member i _ | .unary _ i => [i]
  | .binary _ i j => [i, j]

def name? : Expr → Option String
  | .var x => some x
  | _ => none

end Expr

namespace Statement

def exprs : Statement → List Nat
  | .declare _ init => init.toList
  | .assign _ _ value => [value]
  | .eval e => [e]
  | .branch branches _ => branches.map Prod.fst
  | .whileLoop cond _ => [cond]
  | .forLoop _ cond _ _ => cond.toList
  | .exitLoop | .nextRound => []

/-- The blocks of a statement that is no loop. -/
def choices : Statement → List Nat
  | .branch branches otherwise => branches.map Prod.snd ++ otherwise.toList
  | _ => []

def loopBody? : Statement → Option Nat
  | .whileLoop _ body | .forLoop _ _ _ body => some body
  | _ => none

/-- The clauses of a loop that are statements themselves. -/
def clauses : Statement → List Nat
  | .forLoop init _ update _ => init.toList ++ update.toList
  | _ => []

def name? : Statement → Option String
  | .declare x _ | .assign x _ _ => some x
  | _ => none

def isJump : Statement → Bool
  | .exitLoop | .nextRound => true
  | _ => false

end Statement

/-- Whether an expression is sound at an index. -/
structure Expr.Sound (i : Nat) (e : Expr) : Prop where
  operands : ∀ j ∈ e.parts, j < i
  read : ∀ x ∈ e.name?, Primitive.ofName? x = none

structure Statement.Sound (t : Tables) (s : Statement) : Prop where
  exprs : ∀ j ∈ s.exprs, j < t.exprs.length
  choices : ∀ k ∈ s.choices, k < t.blocks.length
  body : ∀ k ∈ s.loopBody?, k < t.blocks.length
  clauses : ∀ j ∈ s.clauses, ∃ c, t.statements[j]? = some c ∧ c.name?.isSome = true
  changed : ∀ x ∈ s.name?, Primitive.ofName? x = none

namespace Tables

/-- Whether a block is the whole script's, or that of a choice in such a block: no loop is around it. -/
inductive OutsideLoops (t : Tables) : Nat → Prop
  | root : OutsideLoops t 0
  | choice {k i l : Nat} {ids : List Nat} {s : Statement} (outside : OutsideLoops t k)
      (block : t.blocks[k]? = some ids) (mem : i ∈ ids) (statement : t.statements[i]? = some s)
      (choice : l ∈ s.choices) : OutsideLoops t l

/-- All indices are in range, those of an expression before its own; clauses of loops are declarations or
assignments; no variable has the name of a primitive. -/
structure Sound (t : Tables) : Prop where
  root : 0 < t.blocks.length
  block {k : Nat} {ids : List Nat} (h : t.blocks[k]? = some ids) :
    ∀ i ∈ ids, i < t.statements.length
  expr {i : Nat} {e : Expr} (h : t.exprs[i]? = some e) : e.Sound i
  statement {i : Nat} {s : Statement} (h : t.statements[i]? = some s) : s.Sound t

/-- Whether every jump stands in the body of a loop. -/
def JumpsInLoops (t : Tables) : Prop :=
  ∀ k, t.OutsideLoops k → ∀ ids, t.blocks[k]? = some ids → ∀ i ∈ ids, ∀ s,
    t.statements[i]? = some s → s.isJump = false

end Tables

/-! Trees in tables. -/

variable (t : Tables)

mutual

/-- Whether an expression stands in the tables, at an index. -/
def ExprAt : Script.Expr → Nat → Prop
  | .literal v, i => t.exprs[i]? = some (.literal v)
  | .var x, i => t.exprs[i]? = some (.var x)
  | .call p args, i => ∃ js, t.exprs[i]? = some (.call p js) ∧ ExprsAt args js
  | .member e f, i => ∃ j, t.exprs[i]? = some (.member j f) ∧ ExprAt e j
  | .unary op e, i => ∃ j, t.exprs[i]? = some (.unary op j) ∧ ExprAt e j
  | .binary op l r, i => ∃ j k, t.exprs[i]? = some (.binary op j k) ∧ ExprAt l j ∧ ExprAt r k

def ExprsAt : List Script.Expr → List Nat → Prop
  | [], js => js = []
  | e :: rest, js => ∃ j ks, js = j :: ks ∧ ExprAt e j ∧ ExprsAt rest ks

end

/-- A part that may be missing, in the tables or missing there. -/
def PartAt {α : Type} (At : α → Nat → Prop) : Option α → Option Nat → Prop
  | none, i => i = none
  | some a, i => ∃ j, i = some j ∧ At a j

def AssignmentAt (a : Script.Assignment) (i : Nat) : Prop :=
  ∃ j, t.statements[i]? = some (.assign a.name a.op j) ∧ ExprAt t a.value j

def BindingAt : Script.Binding → Nat → Prop
  | .declare x init, i => ∃ j, t.statements[i]? = some (.declare x j) ∧ PartAt (ExprAt t) init j
  | .assign a, i => AssignmentAt t a i

mutual

/-- Whether a statement stands in the tables, at an index, with blocks of its own from another one on. -/
def StatementAt (low : Nat) : Script.Statement → Nat → Prop
  | .bind b, i => BindingAt t b i
  | .eval e, i => ∃ j, t.statements[i]? = some (.eval j) ∧ ExprAt t e j
  | .branch branches otherwise, i => ∃ bs o, t.statements[i]? = some (.branch bs o) ∧
      BranchesAt low branches bs ∧ LastAt low otherwise o
  | .whileLoop cond body, i => ∃ j k ids, t.statements[i]? = some (.whileLoop j k) ∧
      ExprAt t cond j ∧ low ≤ k ∧ t.blocks[k]? = some ids ∧ StatementsAt (k + 1) body ids
  | .forLoop init cond update body, i => ∃ n c u k ids,
      t.statements[i]? = some (.forLoop n c u k) ∧ PartAt (BindingAt t) init n ∧
        PartAt (ExprAt t) cond c ∧ PartAt (AssignmentAt t) update u ∧
          low ≤ k ∧ t.blocks[k]? = some ids ∧ StatementsAt (k + 1) body ids
  | .exitLoop, i => t.statements[i]? = some .exitLoop
  | .nextRound, i => t.statements[i]? = some .nextRound

def StatementsAt (low : Nat) : List Script.Statement → List Nat → Prop
  | [], ids => ids = []
  | s :: rest, ids => ∃ i js, ids = i :: js ∧ StatementAt low s i ∧ StatementsAt low rest js

def BranchesAt (low : Nat) : List (Script.Expr × List Script.Statement) → List (Nat × Nat) → Prop
  | [], bs => bs = []
  | (cond, body) :: rest, bs => ∃ j k ids cs, bs = (j, k) :: cs ∧ ExprAt t cond j ∧ low ≤ k ∧
      t.blocks[k]? = some ids ∧ StatementsAt (k + 1) body ids ∧ BranchesAt low rest cs

def LastAt (low : Nat) : Option (List Script.Statement) → Option Nat → Prop
  | none, o => o = none
  | some body, o => ∃ k ids, o = some k ∧ low ≤ k ∧ t.blocks[k]? = some ids ∧
      StatementsAt (k + 1) body ids

end

/-- Whether the statements of a block stand in the tables. -/
def BlockAt (ss : List Script.Statement) (k : Nat) : Prop :=
  ∃ ids, t.blocks[k]? = some ids ∧ StatementsAt t (k + 1) ss ids

end ScopeBlocks.Script.Indexed
