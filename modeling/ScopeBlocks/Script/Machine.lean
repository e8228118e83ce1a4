import ScopeBlocks.Script.Eval

/-! The machine that runs a script one unit at a time: one simple statement, the conditions of one
choice, one test or clause of a loop, one jump. Its frames hold the statements still to be run, so that
it can stop between any two units. A unit that needs an answer from outside is done again once the
answer is there. -/
namespace ScopeBlocks.Script

inductive LoopPhase where
  | init | test | update
  deriving DecidableEq, Repr

/-- A loop with its clauses; a loop on a condition alone has no others. -/
structure Loop where
  init : Option Binding
  cond : Option Expr
  update : Option Assignment
  body : List Statement
  deriving Repr

inductive Frame where
  | block (rest : List Statement)
  | loop (loop : Loop) (phase : LoopPhase)
  deriving Repr

/-- A machine goes on, waits for the answer to a call, or has ended. -/
inductive Status where
  | ready
  | awaiting (call : AsyncCall)
  | finished
  deriving DecidableEq, Repr

structure Machine where
  frames : List Frame
  store : Store
  recorded : List Value
  status : Status
  units : Nat
  deriving Repr

/-- What one step of a machine tells its driver. -/
inductive Step where
  | continue
  | suspend (call : AsyncCall)
  | pending
  | done
  deriving DecidableEq, Repr

/-- The frames without the blocks on top that are used up. -/
def settle : List Frame → List Frame
  | .block [] :: frames => settle frames
  | frames => frames

/-- The frames below the innermost loop. -/
def afterLoop? : List Frame → Option (List Frame)
  | [] => none
  | .loop _ _ :: frames => some frames
  | .block _ :: frames => afterLoop? frames

/-- The frames from the innermost loop on. -/
def fromLoop? : List Frame → Option (List Frame)
  | [] => none
  | .loop l phase :: frames => some (.loop l phase :: frames)
  | .block _ :: frames => fromLoop? frames

variable {σ : Type} (host : Host σ)

/-- A compound assignment needs its variable before its operand is evaluated; null counts as zero. -/
def Assignment.run (store : Store) (a : Assignment) : Evaluation σ Store := do
  let current ← match a.op with
    | .set => pure .null
    | _ => .ofFault (match store.get? a.name with
      | some v => .ok (if v.isNull then .number 0 else v)
      | none => .error (.undeclared a.name))
  let operand ← a.value.eval host store
  let value ← match a.op with
    | .set => pure operand
    | .add => .ofFault (BinaryOp.apply .add current operand)
    | .sub => .ofFault (BinaryOp.apply .sub current operand)
  .ofFault (store.assign a.name value)

def Binding.run (store : Store) : Binding → Evaluation σ Store
  | .declare name none => return store.define name .null
  | .declare name (some e) => do return store.define name (← e.eval host store)
  | .assign a => a.run host store

/-- The block of the first branch whose condition holds, or the last one. -/
def chooseBranch (store : Store) (otherwise : Option (List Statement)) :
    List (Expr × List Statement) → Evaluation σ (Option (List Statement))
  | [] => return otherwise
  | (cond, body) :: rest => do
    if (← cond.eval host store).truthy then return some body
    else chooseBranch store otherwise rest

/-- A loop without a condition always goes on. -/
def Loop.test (store : Store) (l : Loop) : Evaluation σ Bool :=
  match l.cond with
  | none => return true
  | some e => do return (← e.eval host store).truthy

abbrev Position := List Frame × Store

/-- The next unit of a loop above other frames. A clause that is missing takes no unit. -/
def Loop.run (store : Store) (l : Loop) (phase : LoopPhase) (frames : List Frame) :
    Evaluation σ Position := do
  match phase, l.init, l.update with
  | .init, some b, _ => return (.loop l .test :: frames, ← b.run host store)
  | .update, _, some a => return (.loop l .test :: frames, ← a.run host store)
  | _, _, _ =>
    if ← l.test host store then return (.block l.body :: .loop l .update :: frames, store)
    else return (frames, store)

/-- The next unit where a statement stands first in a block. -/
def Statement.run (store : Store) (frames : List Frame) : Statement → Evaluation σ Position
  | .bind b => do return (frames, ← b.run host store)
  | .eval e => do
    let _ ← e.eval host store
    return (frames, store)
  | .branch branches otherwise => do
    match ← chooseBranch host store otherwise branches with
    | some body => return (.block body :: frames, store)
    | none => return (frames, store)
  | .whileLoop cond body => Loop.run host store ⟨none, some cond, none, body⟩ .test frames
  | .forLoop init cond update body => Loop.run host store ⟨init, cond, update, body⟩ .init frames
  | .exitLoop =>
    match afterLoop? frames with
    | some frames => return (frames, store)
    | none => .fail (.fault (.outsideLoop .breakWord))
  | .nextRound =>
    match fromLoop? frames with
    | some frames => return (frames, store)
    | none => .fail (.fault (.outsideLoop .continueWord))

def runUnit (store : Store) : List Frame → Evaluation σ Position
  | .block (s :: rest) :: frames => s.run host store (.block rest :: frames)
  | .loop l phase :: frames => l.run host store phase frames
  | frames => return (settle frames, store)

namespace Machine

def ofProgram (program : Program) : Machine := ⟨[.block program], .empty, [], .ready, 0⟩

def isFinished (m : Machine) : Bool := m.status == .finished

def isSuspended (m : Machine) : Bool :=
  match m.status with
  | .awaiting _ => true
  | _ => false

/-- A machine that an error has ended: it keeps its variables and does nothing more. -/
def halt (m : Machine) : Machine := { m with frames := [], recorded := [], status := .finished }

def advance (m : Machine) (position : Position) : Machine :=
  let frames := settle position.1
  { frames, store := position.2, recorded := [], units := m.units + 1
    status := if frames.isEmpty then .finished else .ready }

/-- One unit, where the machine is ready for one. -/
def step (m : Machine) (s : σ) : Except Error Step × Machine × σ :=
  match m.status with
  | .finished => (.ok .done, m, s)
  | .awaiting _ => (.ok .pending, m, s)
  | .ready =>
    match settle m.frames with
    | [] => (.ok .done, { m with frames := [], status := .finished }, s)
    | frames =>
      match runUnit host m.store frames ⟨.ofEntries m.recorded, s⟩ with
      | (.ok position, tape) =>
        let m := m.advance position
        (.ok (if m.isFinished then .done else .continue), m, tape.host)
      | (.error (.suspend call), tape) =>
        (.ok (.suspend call),
          { m with frames, recorded := tape.journal.entries, status := .awaiting call }, tape.host)
      | (.error (.fail e), tape) => (.error e, m.halt, tape.host)

/-- At most `budget` units, fewer where the machine stops going on. -/
def runBounded : Nat → Machine → σ → Except Error Step × Machine × σ
  | 0, m, s => (.ok (if m.isFinished then .done else .continue), m, s)
  | budget + 1, m, s =>
    match m.step host s with
    | (.ok .continue, m, s) => runBounded budget m s
    | r => r

/-- Units until the machine stops going on. A machine that always goes on comes to nothing. -/
inductive Runs : Machine → σ → Except Error Step × Machine × σ → Prop where
  | stops {m : Machine} {s : σ} (h : (m.step host s).1 ≠ .ok .continue) : Runs m s (m.step host s)
  | goesOn {m m' : Machine} {s s' : σ} {r : Except Error Step × Machine × σ}
      (h : m.step host s = (.ok .continue, m', s')) (runs : Runs m' s' r) : Runs m s r

/-- The machine with the answer that it waits for; none if it waits for none. -/
def resolve? (m : Machine) (v : Value) : Option Machine :=
  match m.status with
  | .awaiting _ => some { m with recorded := m.recorded ++ [v], status := .ready }
  | _ => none

end Machine

end ScopeBlocks.Script
