import ScopeBlocks.Script.Machine

/-! Units of a script as dialogues. A dialogue asks for one call of a primitive at a time and goes on
with the result, whoever gives it. Evaluation with a journal is the dialogue with its calls answered
from the journal first, so that the order of the calls is that of the dialogue however often the unit is
done again. -/
namespace ScopeBlocks.Script

/-- A computation that asks for the results of calls, one after another. -/
inductive Dialogue (α : Type) where
  | value (a : α)
  | fail (error : Error)
  | ask (primitive : Primitive) (args : List Value) (next : Value → Dialogue α)

namespace Dialogue

variable {σ α β : Type}

def andThen : Dialogue α → (α → Dialogue β) → Dialogue β
  | .value a, f => f a
  | .fail e, _ => .fail e
  | .ask p args next, f => .ask p args fun v => (next v).andThen f

instance : Monad Dialogue where
  pure := .value
  bind := andThen

def call (p : Primitive) (args : List Value) : Dialogue Value := .ask p args .value

def ofFault : Except Fault α → Dialogue α
  | .ok a => .value a
  | .error cause => .fail (.fault cause)

/-- The dialogue that is left once its first calls have had some results. -/
def after : List Value → Dialogue α → Option (Dialogue α)
  | [], x => some x
  | v :: vs, .ask _ _ next => after vs (next v)
  | _ :: _, _ => none

theorem after_append {vs ws : List Value} {x y : Dialogue α} (h : x.after vs = some y) :
    x.after (vs ++ ws) = y.after ws := by
  induction vs generalizing x with
  | nil =>
    cases h
    rfl
  | cons v vs ih =>
    cases x with
    | value a => cases h
    | fail e => cases h
    | ask p args next => exact ih h

/-- Every call is taken from the journal where it has a result, and made otherwise. -/
def replay (host : Host σ) : Dialogue α → Evaluation σ α
  | .value a => pure a
  | .fail e => .fail e
  | .ask p args next => p.call host args >>= fun v => (next v).replay host

end Dialogue

namespace Evaluation

variable {σ α β γ : Type}

theorem bind_pure (x : Evaluation σ α) : (x >>= fun a => pure a) = x := by
  funext tape
  rw [bind_apply]
  rcases x tape with ⟨_ | a, tape⟩ <;> rfl

theorem bind_assoc (x : Evaluation σ α) (f : α → Evaluation σ β) (g : β → Evaluation σ γ) :
    x >>= f >>= g = x >>= fun a => f a >>= g := by
  funext tape
  simp only [bind_apply]
  rcases x tape with ⟨_ | a, tape⟩ <;> rfl

end Evaluation

namespace Dialogue

variable {σ α β : Type} (host : Host σ)

@[simp] theorem replay_pure (a : α) : (pure a : Dialogue α).replay host = pure a := rfl

@[simp] theorem replay_call (p : Primitive) (args : List Value) :
    (call p args).replay host = p.call host args := Evaluation.bind_pure _

@[simp] theorem replay_ofFault (r : Except Fault α) : (ofFault r).replay host = .ofFault r := by
  cases r <;> rfl

@[simp] theorem replay_bind (x : Dialogue α) (f : α → Dialogue β) :
    (x >>= f).replay host = x.replay host >>= fun a => (f a).replay host := by
  change (x.andThen f).replay host = _
  induction x with
  | value a => rfl
  | fail e => rfl
  | ask p args next ih => simp only [andThen, replay, ih, Evaluation.bind_assoc]

theorem replay_ite (c : Bool) (x y : Dialogue α) :
    (if c then x else y).replay host = if c then x.replay host else y.replay host := by
  cases c <;> rfl

end Dialogue

mutual

def Expr.dialogue (store : Store) : Expr → Dialogue Value
  | .literal v => return v
  | .var name => .ofFault (store.read name)
  | .member object field => do .ofFault ((← object.dialogue store).member field)
  | .unary op operand => do .ofFault (op.apply (← operand.dialogue store))
  | .binary .and left right => do
    if (← left.dialogue store).truthy then return .bool (← right.dialogue store).truthy
    else return .bool false
  | .binary .or left right => do
    if (← left.dialogue store).truthy then return .bool true
    else return .bool (← right.dialogue store).truthy
  | .binary op left right => do
    let v ← left.dialogue store
    .ofFault (op.apply v (← right.dialogue store))
  | .call p args => do .call p (← dialogueArgs store args)

def Expr.dialogueArgs (store : Store) : List Expr → Dialogue (List Value)
  | [] => return []
  | e :: rest => do
    let v ← e.dialogue store
    return v :: (← dialogueArgs store rest)

end

def Store.current (store : Store) (name : String) : Except Fault Value :=
  match store.get? name with
  | some v => .ok (if v.isNull then .number 0 else v)
  | none => .error (.undeclared name)

def Assignment.dialogue (store : Store) (a : Assignment) : Dialogue Store := do
  let current ← match a.op with
    | .set => pure .null
    | _ => .ofFault (match store.get? a.name with
      | some v => .ok (if v.isNull then .number 0 else v)
      | none => .error (.undeclared a.name))
  let operand ← a.value.dialogue store
  let value ← match a.op with
    | .set => pure operand
    | .add => .ofFault (BinaryOp.apply .add current operand)
    | .sub => .ofFault (BinaryOp.apply .sub current operand)
  .ofFault (store.assign a.name value)

def Binding.dialogue (store : Store) : Binding → Dialogue Store
  | .declare name none => return store.define name .null
  | .declare name (some e) => do return store.define name (← e.dialogue store)
  | .assign a => a.dialogue store

def choiceDialogue (store : Store) (otherwise : Option (List Statement)) :
    List (Expr × List Statement) → Dialogue (Option (List Statement))
  | [] => return otherwise
  | (cond, body) :: rest => do
    if (← cond.dialogue store).truthy then return some body
    else choiceDialogue store otherwise rest

def Loop.testDialogue (store : Store) (l : Loop) : Dialogue Bool :=
  match l.cond with
  | none => return true
  | some e => do return (← e.dialogue store).truthy

def Loop.dialogue (store : Store) (l : Loop) (phase : LoopPhase) (frames : List Frame) :
    Dialogue Position := do
  match phase, l.init, l.update with
  | .init, some b, _ => return (.loop l .test :: frames, ← b.dialogue store)
  | .update, _, some a => return (.loop l .test :: frames, ← a.dialogue store)
  | _, _, _ =>
    if ← l.testDialogue store then return (.block l.body :: .loop l .update :: frames, store)
    else return (frames, store)

def Statement.dialogue (store : Store) (frames : List Frame) : Statement → Dialogue Position
  | .bind b => do return (frames, ← b.dialogue store)
  | .eval e => do
    let _ ← e.dialogue store
    return (frames, store)
  | .branch branches otherwise => do
    match ← choiceDialogue store otherwise branches with
    | some body => return (.block body :: frames, store)
    | none => return (frames, store)
  | .whileLoop cond body => Loop.dialogue store ⟨none, some cond, none, body⟩ .test frames
  | .forLoop init cond update body => Loop.dialogue store ⟨init, cond, update, body⟩ .init frames
  | .exitLoop =>
    match afterLoop? frames with
    | some frames => return (frames, store)
    | none => .fail (.fault (.outsideLoop .breakWord))
  | .nextRound =>
    match fromLoop? frames with
    | some frames => return (frames, store)
    | none => .fail (.fault (.outsideLoop .continueWord))

def unitDialogue (store : Store) : List Frame → Dialogue Position
  | .block (s :: rest) :: frames => s.dialogue store (.block rest :: frames)
  | .loop l phase :: frames => l.dialogue store phase frames
  | frames => return (settle frames, store)

section Replay

variable {σ : Type} (host : Host σ) (store : Store)

mutual

theorem Expr.replay_dialogue : ∀ e : Expr, (e.dialogue store).replay host = e.eval host store
  | .literal v => rfl
  | .var name => by simp only [dialogue, eval, Dialogue.replay_ofFault]
  | .member object field => by
    simp only [dialogue, eval, Dialogue.replay_bind, Dialogue.replay_ofFault, replay_dialogue object]
  | .unary op operand => by
    simp only [dialogue, eval, Dialogue.replay_bind, Dialogue.replay_ofFault, replay_dialogue operand]
  | .binary op left right => by
    have hl := replay_dialogue left
    have hr := replay_dialogue right
    cases op <;>
      simp only [dialogue, eval, Dialogue.replay_bind, Dialogue.replay_ite, Dialogue.replay_ofFault,
        Dialogue.replay_pure, hl, hr]
  | .call p args => by
    simp only [dialogue, eval, Dialogue.replay_bind, Dialogue.replay_call, replay_dialogueArgs args]

theorem Expr.replay_dialogueArgs :
    ∀ es : List Expr, (dialogueArgs store es).replay host = evalArgs host store es
  | [] => rfl
  | e :: rest => by
    simp only [dialogueArgs, evalArgs, Dialogue.replay_bind, Dialogue.replay_pure, replay_dialogue e,
      replay_dialogueArgs rest]

end

theorem Assignment.replay_dialogue (a : Assignment) :
    (a.dialogue store).replay host = a.run host store := by
  unfold dialogue run
  cases a.op with
  | set =>
    simp only [Dialogue.replay_bind, Dialogue.replay_pure, Dialogue.replay_ofFault,
      Expr.replay_dialogue]
  | add | sub =>
    cases store.get? a.name <;>
      simp only [Dialogue.replay_bind, Dialogue.replay_ofFault, Expr.replay_dialogue]

theorem Binding.replay_dialogue (b : Binding) :
    (b.dialogue store).replay host = b.run host store := by
  cases b with
  | declare name init =>
    cases init with
    | none => rfl
    | some e =>
      simp only [dialogue, run, Dialogue.replay_bind, Dialogue.replay_pure, Expr.replay_dialogue]
  | assign a => exact a.replay_dialogue host store

theorem replay_choiceDialogue (otherwise : Option (List Statement))
    (branches : List (Expr × List Statement)) :
    (choiceDialogue store otherwise branches).replay host =
      chooseBranch host store otherwise branches := by
  induction branches with
  | nil => rfl
  | cons branch rest ih =>
    simp only [choiceDialogue, chooseBranch, Dialogue.replay_bind, Dialogue.replay_ite,
      Dialogue.replay_pure, Expr.replay_dialogue, ih]

theorem Loop.replay_testDialogue (l : Loop) :
    (l.testDialogue store).replay host = l.test host store := by
  unfold testDialogue test
  cases l.cond with
  | none => rfl
  | some e => simp only [Dialogue.replay_bind, Dialogue.replay_pure, Expr.replay_dialogue]

theorem Loop.replay_dialogue (l : Loop) (phase : LoopPhase) (frames : List Frame) :
    (l.dialogue store phase frames).replay host = l.run host store phase frames := by
  unfold dialogue run
  cases phase <;> cases l.init <;> cases l.update <;>
    simp only [Dialogue.replay_bind, Dialogue.replay_ite, Dialogue.replay_pure,
      Binding.replay_dialogue, Assignment.replay_dialogue, Loop.replay_testDialogue]

theorem Statement.replay_dialogue (s : Statement) (frames : List Frame) :
    (s.dialogue store frames).replay host = s.run host store frames := by
  cases s with
  | bind b =>
    simp only [dialogue, run, Dialogue.replay_bind, Dialogue.replay_pure, Binding.replay_dialogue]
  | eval e =>
    simp only [dialogue, run, Dialogue.replay_bind, Dialogue.replay_pure, Expr.replay_dialogue]
  | branch branches otherwise =>
    simp only [dialogue, run, Dialogue.replay_bind, replay_choiceDialogue]
    congr 1
    funext chosen
    cases chosen <;> rfl
  | whileLoop cond body => exact Loop.replay_dialogue host store ⟨none, some cond, none, body⟩ .test _
  | forLoop init cond update body =>
    exact Loop.replay_dialogue host store ⟨init, cond, update, body⟩ .init _
  | exitLoop =>
    simp only [dialogue, run]
    cases afterLoop? frames <;> rfl
  | nextRound =>
    simp only [dialogue, run]
    cases fromLoop? frames <;> rfl

theorem replay_unitDialogue (frames : List Frame) :
    (unitDialogue store frames).replay host = runUnit host store frames := by
  match frames with
  | [] => rfl
  | .block [] :: _ => rfl
  | .block (s :: _) :: _ => exact s.replay_dialogue host store _
  | .loop l _ :: _ => exact l.replay_dialogue host store _ _

end Replay

end ScopeBlocks.Script
