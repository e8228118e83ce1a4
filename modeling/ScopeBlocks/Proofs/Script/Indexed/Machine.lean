import ScopeBlocks.Proofs.Script.Indexed.Tables

/-! The machine that runs a script from its tables. Its frames hold indices only, and it looks a row up
whenever it needs one. In tables of any kind it might come upon an index out of range, a row of another
kind than it needs, or a ring of rows; these are results of their own here. -/
namespace ScopeBlocks.Script.Indexed

inductive Frame where
  | block (block next : Nat)
  | loop (statement : Nat) (phase : LoopPhase)
  deriving DecidableEq, Repr

/-- What a machine comes upon where its assumptions do not hold. -/
inductive Flaw where
  | noStatement (index : Nat)
  | noExpr (index : Nat)
  | noBlock (index : Nat)
  | notALoop (statement : Nat)
  | notSimple (statement : Nat)
  | outsideLoop (word : Keyword)
  | notSynchronous (primitive : Primitive)
  deriving DecidableEq, Repr

/-- Why an evaluation is broken off. -/
inductive Break where
  | suspend (call : AsyncCall)
  | fail (error : Error)
  | flaw (flaw : Flaw)

/-- Evaluations; one that goes round in a ring of rows comes to nothing. -/
abbrev Calc (σ : Type) := ExceptT Break (StateT (Tape σ) Option)

namespace Calc

variable {σ α : Type}

def flaw (f : Flaw) : Calc σ α := fun tape => some (.error (.flaw f), tape)

def endless : Calc σ α := fun _ => none

def ofEvaluation (x : Evaluation σ α) : Calc σ α := fun tape =>
  match x tape with
  | (.ok a, tape) => some (.ok a, tape)
  | (.error (.suspend call), tape) => some (.error (.suspend call), tape)
  | (.error (.fail e), tape) => some (.error (.fail e), tape)

def ofFault (r : Except Fault α) : Calc σ α := ofEvaluation (.ofFault r)

def row (o : Option α) (f : Flaw) : Calc σ α :=
  match o with
  | some a => pure a
  | none => flaw f

end Calc

variable {σ : Type} (host : Host σ) (t : Tables) (store : Store)

def call (p : Primitive) (args : List Value) : Calc σ Value := fun tape =>
  match tape.journal.ahead with
  | v :: ahead => some (.ok v, { tape with journal := ⟨v :: tape.journal.taken, ahead⟩ })
  | [] =>
    if p.isAsync then
      match AsyncCall.ofArguments p args with
      | .ok call => some (.error (.suspend call), tape)
      | .error cause => some (.error (.fail (.misuse p cause)), tape)
    else
      match p with
      | .print | .prompt | .mark =>
        let performed : Evaluation σ Value := do
          let v ← p.perform host args
          .record v
          return v
        Calc.ofEvaluation performed tape
      | p => Calc.flaw (.notSynchronous p) tape

def evalRow (operand : Nat → Calc σ Value) : Expr → Calc σ Value
  | .literal v => return v
  | .var name => .ofFault (store.read name)
  | .member object field => do .ofFault ((← operand object).member field)
  | .unary op i => do .ofFault (op.apply (← operand i))
  | .binary .and left right => do
    if (← operand left).truthy then return .bool (← operand right).truthy else return .bool false
  | .binary .or left right => do
    if (← operand left).truthy then return .bool true else return .bool (← operand right).truthy
  | .binary op left right => do
    let v ← operand left
    .ofFault (op.apply v (← operand right))
  | .call p args => do call host p (← args.mapM operand)

/-- A row with at most so many rows within each other. -/
def evalWithin : Nat → Nat → Calc σ Value
  | 0, _ => .endless
  | depth + 1, i => do evalRow host store (evalWithin depth) (← Calc.row t.exprs[i]? (.noExpr i))

/-- More rows within each other than there are rows have one of them within itself. -/
def eval (i : Nat) : Calc σ Value := evalWithin host t store t.exprs.length i

def simple (i : Nat) : Calc σ Store := do
  match ← Calc.row t.statements[i]? (.noStatement i) with
  | .declare name none => return store.define name .null
  | .declare name (some e) => return store.define name (← eval host t store e)
  | .assign name op e => do
    let current ← match op with
      | .set => pure .null
      | _ => .ofFault (match store.get? name with
        | some v => .ok (if v.isNull then .number 0 else v)
        | none => .error (.undeclared name))
    let operand ← eval host t store e
    let value ← match op with
      | .set => pure operand
      | .add => .ofFault (BinaryOp.apply .add current operand)
      | .sub => .ofFault (BinaryOp.apply .sub current operand)
    .ofFault (store.assign name value)
  | .eval e => do
    let _ ← eval host t store e
    return store
  | _ => .flaw (.notSimple i)

def choose (otherwise : Option Nat) : List (Nat × Nat) → Calc σ (Option Nat)
  | [] => return otherwise
  | (cond, block) :: rest => do
    if (← eval host t store cond).truthy then return some block else choose otherwise rest

def test : Option Nat → Calc σ Bool
  | none => return true
  | some cond => return (← eval host t store cond).truthy

/-! Frames. -/

def settle : List Frame → Except Flaw (List Frame)
  | .block k n :: frames =>
    match t.blocks[k]? with
    | none => .error (.noBlock k)
    | some ids => if n < ids.length then .ok (.block k n :: frames) else settle frames
  | frames => .ok frames

def advance : List Frame → List Frame
  | .block k n :: frames => .block k (n + 1) :: frames
  | frames => frames

def setPhase (phase : LoopPhase) : List Frame → List Frame
  | .loop i _ :: frames => .loop i phase :: frames
  | frames => frames

def afterLoop? : List Frame → Option (List Frame)
  | [] => none
  | .loop _ _ :: frames => some frames
  | .block _ _ :: frames => afterLoop? frames

def fromLoop? : List Frame → Option (List Frame)
  | [] => none
  | .loop i phase :: frames => some (.loop i phase :: frames)
  | .block _ _ :: frames => fromLoop? frames

/-- What is done as one unit: a statement of the block on top, a clause of the loop on top or its test. -/
inductive Task where
  | nothing
  | statement (index : Nat)
  | clause (statement : Nat)
  | test (cond : Option Nat) (body : Nat) (after : LoopPhase)

/-- The next task of a loop: a clause or the test. A clause that is missing is passed over. -/
def locateLoop (i : Nat) (phase : LoopPhase) (below : List Frame) : Except Flaw (Task × List Frame) :=
  match t.statements[i]? with
  | none => .error (.noStatement i)
  | some (.whileLoop cond body) => .ok (.test (some cond) body .test, .loop i .test :: below)
  | some (.forLoop init cond update body) =>
    match phase, init, update with
    | .init, some c, _ | .update, _, some c => .ok (.clause c, .loop i phase :: below)
    | _, _, _ => .ok (.test cond body .update, .loop i .test :: below)
  | some _ => .error (.notALoop i)

/-- The next task. A loop that comes next is entered. -/
def locate : List Frame → Except Flaw (Task × List Frame)
  | [] => .ok (.nothing, [])
  | .block k n :: below =>
    match t.blocks[k]? with
    | none => .error (.noBlock k)
    | some ids =>
      match ids[n]? with
      | none => locate below
      | some i =>
        match t.statements[i]? with
        | none => .error (.noStatement i)
        | some (.whileLoop _ _) => locateLoop t i .test (.block k (n + 1) :: below)
        | some (.forLoop _ _ _ _) => locateLoop t i .init (.block k (n + 1) :: below)
        | some _ => .ok (.statement i, .block k n :: below)
  | .loop i phase :: below => locateLoop t i phase below

def Task.run (frames : List Frame) : Task → Calc σ (List Frame × Store)
  | .nothing => return (frames, store)
  | .clause c => return (setPhase .test frames, ← simple host t store c)
  | .test cond body after => do
    if ← Indexed.test host t store cond then return (.block body 0 :: setPhase after frames, store)
    else return (frames.tail, store)
  | .statement i => do
    match ← Calc.row t.statements[i]? (.noStatement i) with
    | .branch branches otherwise =>
      match ← choose host t store otherwise branches with
      | some block => return (.block block 0 :: advance frames, store)
      | none => return (advance frames, store)
    | .exitLoop =>
      match afterLoop? (advance frames) with
      | some frames => return (frames, store)
      | none => .flaw (.outsideLoop .breakWord)
    | .nextRound =>
      match fromLoop? (advance frames) with
      | some frames => return (frames, store)
      | none => .flaw (.outsideLoop .continueWord)
    | _ => return (advance frames, ← simple host t store i)

/-! The machine. -/

/-- A step fails where the script does, or where an assumption of the machine does not hold. -/
inductive Failure where
  | script (error : Error)
  | flaw (flaw : Flaw)

structure Machine where
  frames : List Frame
  store : Store
  recorded : List Value
  awaiting : Option AsyncCall
  finished : Bool
  units : Nat

namespace Machine

def start : Machine := ⟨[.block 0 0], .empty, [], none, false, 0⟩

def halt (m : Machine) : Machine :=
  { m with frames := [], recorded := [], awaiting := none, finished := true }

/-- The machine after a unit that has come to its end. -/
def after (m : Machine) (position : List Frame × Store) (s : σ) :
    Except Failure Step × Machine × σ :=
  match settle t position.1 with
  | .error f => (.error (.flaw f), m.halt, s)
  | .ok frames =>
    (.ok (if frames.isEmpty then .done else .continue),
      { m with
        frames, store := position.2, recorded := []
        finished := frames.isEmpty, units := m.units + 1 }, s)

/-- The machine after a unit that was begun with the frames. -/
def conclude (m : Machine) (frames : List Frame) :
    Except Break (List Frame × Store) × Tape σ → Except Failure Step × Machine × σ
  | (.ok position, tape) => m.after t position tape.host
  | (.error (.suspend call), tape) =>
    (.ok (.suspend call),
      { m with frames, recorded := tape.journal.entries, awaiting := some call }, tape.host)
  | (.error (.fail e), tape) => (.error (.script e), m.halt, tape.host)
  | (.error (.flaw f), tape) => (.error (.flaw f), m.halt, tape.host)

/-- One unit. A step that goes round in a ring of rows comes to nothing. -/
def step (m : Machine) (s : σ) : Option (Except Failure Step × Machine × σ) :=
  if m.finished then some (.ok .done, m, s)
  else if m.awaiting.isSome then some (.ok .pending, m, s)
  else
    match settle t m.frames with
    | .error f => some (.error (.flaw f), m.halt, s)
    | .ok [] => some (.ok .done, { m with frames := [], finished := true }, s)
    | .ok frames =>
      match locate t frames with
      | .error f => some (.error (.flaw f), m.halt, s)
      | .ok (task, frames) =>
        (task.run host t m.store frames ⟨.ofEntries m.recorded, s⟩).map (m.conclude t frames)

def resolve? (m : Machine) (v : Value) : Option Machine :=
  match m.awaiting with
  | some _ => some { m with recorded := m.recorded ++ [v], awaiting := none }
  | none => none

/-- The machines that any driver may bring about, with any host at any step. -/
inductive Reached (t : Tables) : Machine → Prop
  | start : Reached t .start
  | step {σ : Type} {host : Host σ} {s s' : σ} {m m' : Machine} {r : Except Failure Step}
      (reached : Reached t m) (h : m.step host t s = some (r, m', s')) : Reached t m'
  | resolve {v : Value} {m m' : Machine} (reached : Reached t m) (h : m.resolve? v = some m') :
      Reached t m'

end Machine

end ScopeBlocks.Script.Indexed
