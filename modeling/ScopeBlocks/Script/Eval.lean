import ScopeBlocks.Script.Call
import ScopeBlocks.Script.Operator
import ScopeBlocks.Script.Store
import ScopeBlocks.Text.Blank

/-! Evaluation of expressions. Calls of primitives are the only effects, and each result that one
gives is recorded. When an evaluation is broken off for an answer from outside and done again later,
recorded results are taken in order in place of calls. -/
namespace ScopeBlocks.Script

/-- What surrounds a running script: it prints, answers prompts and is told which block is next. -/
structure Host (σ : Type) where
  print : String → σ → σ
  prompt : String → Bool → σ → Option String × σ
  mark : String → σ → σ

/-- The results recorded so far: those taken, the latest first, and those still ahead. -/
structure Journal where
  taken : List Value
  ahead : List Value
  deriving Repr

namespace Journal

def entries (j : Journal) : List Value := j.taken.reverse ++ j.ahead

def ofEntries (entries : List Value) : Journal := ⟨[], entries⟩

def record (j : Journal) (v : Value) : Journal := ⟨v :: j.taken, j.ahead⟩

@[simp] theorem entries_ofEntries (vs : List Value) : (ofEntries vs).entries = vs := rfl

end Journal

/-- Why an evaluation has no value: it waits for an answer, or it failed. -/
inductive Interrupt where
  | suspend (call : AsyncCall)
  | fail (error : Error)
  deriving DecidableEq, Repr

/-- The journal of an evaluation and the state of its host. -/
structure Tape (σ : Type) where
  journal : Journal
  host : σ

/-- Evaluations that may be broken off; what they did until then stays done. -/
def Evaluation (σ α : Type) := Tape σ → Except Interrupt α × Tape σ

namespace Evaluation

variable {σ α β : Type}

def value (a : α) : Evaluation σ α := fun tape => (.ok a, tape)

def andThen (x : Evaluation σ α) (f : α → Evaluation σ β) : Evaluation σ β := fun tape =>
  match x tape with
  | (.ok a, tape) => f a tape
  | (.error e, tape) => (.error e, tape)

instance : Monad (Evaluation σ) where
  pure := value
  bind := andThen

theorem pure_apply (a : α) (tape : Tape σ) : (pure a : Evaluation σ α) tape = (.ok a, tape) := rfl

theorem bind_apply (x : Evaluation σ α) (f : α → Evaluation σ β) (tape : Tape σ) :
    (x >>= f) tape = match x tape with
      | (.ok a, tape) => f a tape
      | (.error e, tape) => (.error e, tape) := rfl

def fail (e : Error) : Evaluation σ α := fun tape => (.error (.fail e), tape)

def suspend (call : AsyncCall) : Evaluation σ α := fun tape => (.error (.suspend call), tape)

def ofFault : Except Fault α → Evaluation σ α
  | .ok a => value a
  | .error cause => fail (.fault cause)

def onHost (f : σ → α × σ) : Evaluation σ α := fun tape =>
  let (a, host) := f tape.host
  (.ok a, { tape with host })

def record (v : Value) : Evaluation σ Unit := fun tape =>
  (.ok (), { tape with journal := tape.journal.record v })

/-- The next recorded result, or what is done where there is none. -/
def recordedOr (x : Evaluation σ Value) : Evaluation σ Value := fun tape =>
  match tape.journal.ahead with
  | v :: ahead => (.ok v, { tape with journal := ⟨v :: tape.journal.taken, ahead⟩ })
  | [] => x tape

end Evaluation

/-- The number that an answer to a prompt is, blanks around it aside. -/
def numberAnswered (answer : String) : Number :=
  (Number.readChars? (Text.trimChars answer.toList)).getD .nan

/-- The value of an answer; a dismissed prompt gives null. -/
def answerValue (numeric : Bool) : Option String → Value
  | none => .null
  | some answer => if numeric then .number (numberAnswered answer) else .string answer

def promptKind : List Value → Except Misuse (Value × Bool)
  | [message] => .ok (message, false)
  | [message, .string kind] =>
    if kind = "number" then .ok (message, true)
    else if kind = "text" then .ok (message, false)
    else .error .promptShape
  | _ => .error .promptShape

namespace Primitive

variable {σ : Type} (host : Host σ)

/-- A call that the host answers at once. -/
def perform : Primitive → List Value → Evaluation σ Value
  | .print, args =>
    match args with
    | [] => .onHost fun s => (.null, host.print "" s)
    | [v] => .onHost fun s => (.null, host.print v.text s)
    | _ => .fail (.misuse .print .printArity)
  | .prompt, args =>
    match promptKind args with
    | .ok (message, numeric) => .onHost fun s =>
      let (answer, s) := host.prompt message.text numeric s
      (answerValue numeric answer, s)
    | .error cause => .fail (.misuse .prompt cause)
  | .mark, args =>
    match args with
    | [.string id] => .onHost fun s => (.null, host.mark id s)
    | _ => .fail (.misuse .mark .markShape)
  | p, args =>
    match AsyncCall.ofArguments p args with
    | .ok call => .suspend call
    | .error cause => .fail (.misuse p cause)

/-- A call with its arguments; a recorded result stands for it where there is one. -/
def call (p : Primitive) (args : List Value) : Evaluation σ Value :=
  .recordedOr do
    let v ← p.perform host args
    .record v
    return v

end Primitive

variable {σ : Type} (host : Host σ) (store : Store)

/-- The fields of an object, null for those that it lacks; a failure has itself for every field. -/
def Value.member (field : String) : Value → Except Fault Value
  | .object fields => .ok ((fields.get? field).getD .null)
  | .error message => .ok (.error message)
  | v => .error (.noField field v.kind)

def Store.read (name : String) : Except Fault Value :=
  match store.get? name with
  | some v => .ok v
  | none => .error (.unbound name)

mutual

/-- Operands are evaluated from left to right; the right side of `&&` and `||` only where the left
one leaves the answer open. -/
def Expr.eval : Expr → Evaluation σ Value
  | .literal v => return v
  | .var name => .ofFault (store.read name)
  | .member object field => do .ofFault ((← object.eval).member field)
  | .unary op operand => do .ofFault (op.apply (← operand.eval))
  | .binary .and left right => do
    if (← left.eval).truthy then return .bool (← right.eval).truthy else return .bool false
  | .binary .or left right => do
    if (← left.eval).truthy then return .bool true else return .bool (← right.eval).truthy
  | .binary op left right => do
    let v ← left.eval
    .ofFault (op.apply v (← right.eval))
  | .call p args => do p.call host (← evalArgs args)

def Expr.evalArgs : List Expr → Evaluation σ (List Value)
  | [] => return []
  | e :: rest => do
    let v ← e.eval
    return v :: (← evalArgs rest)

end

end ScopeBlocks.Script
