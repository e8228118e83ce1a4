import Mathlib.Logic.Function.Basic
import ScopeBlocks.Proofs.Script.FreeUses
import ScopeBlocks.Proofs.Script.Outcomes
import ScopeBlocks.Proofs.Script.Writing

/-! Scripts with other variables. What the variables of a script are called cannot be seen as long as no two
of them get one name: machines on the script and on the renamed one do the same under any host and any
driver, and their stores have the same values. Only an error may tell the name of a variable. -/
namespace ScopeBlocks.Script

/-- The variable that a binding declares or changes. -/
def Binding.writes : Binding → List String
  | .declare x _ => [x]
  | .assign a => [a.name]

section Syntax

variable (ρ : String → String)

mutual

def Expr.rename : Expr → Expr
  | .literal v => .literal v
  | .var x => .var (ρ x)
  | .call p args => .call p (renameArgs args)
  | .member e field => .member e.rename field
  | .unary op e => .unary op e.rename
  | .binary op l r => .binary op l.rename r.rename

def Expr.renameArgs : List Expr → List Expr
  | [] => []
  | e :: rest => e.rename :: renameArgs rest

end

def Assignment.rename (a : Assignment) : Assignment := ⟨ρ a.name, a.op, a.value.rename ρ⟩

def Binding.rename : Binding → Binding
  | .declare x init => .declare (ρ x) (init.map (Expr.rename ρ))
  | .assign a => .assign (a.rename ρ)

mutual

def Statement.rename : Statement → Statement
  | .bind b => .bind (b.rename ρ)
  | .eval e => .eval (e.rename ρ)
  | .branch branches otherwise => .branch (renameBranches branches) (renameOtherwise otherwise)
  | .whileLoop cond body => .whileLoop (cond.rename ρ) (renameAll body)
  | .forLoop init cond update body =>
    .forLoop (init.map (Binding.rename ρ)) (cond.map (Expr.rename ρ))
      (update.map (Assignment.rename ρ)) (renameAll body)
  | .exitLoop => .exitLoop
  | .nextRound => .nextRound

def renameAll : List Statement → List Statement
  | [] => []
  | s :: rest => s.rename :: renameAll rest

def renameBranches : List (Expr × List Statement) → List (Expr × List Statement)
  | [] => []
  | (cond, body) :: rest => (cond.rename ρ, renameAll body) :: renameBranches rest

def renameOtherwise : Option (List Statement) → Option (List Statement)
  | none => none
  | some body => some (renameAll body)

end

def Loop.rename (l : Loop) : Loop :=
  ⟨l.init.map (Binding.rename ρ), l.cond.map (Expr.rename ρ), l.update.map (Assignment.rename ρ),
    renameAll ρ l.body⟩

def Frame.rename : Frame → Frame
  | .block rest => .block (renameAll ρ rest)
  | .loop l phase => .loop (l.rename ρ) phase

def Fault.rename : Fault → Fault
  | .unbound x => .unbound (ρ x)
  | .undeclared x => .undeclared (ρ x)
  | cause => cause

def Error.rename : Error → Error
  | .fault cause => .fault (cause.rename ρ)
  | .misuse p cause => .misuse p cause

@[simp] theorem renameAll_append (ss ts : List Statement) :
    renameAll ρ (ss ++ ts) = renameAll ρ ss ++ renameAll ρ ts := by
  induction ss with
  | nil => rfl
  | cons s ss ih => simp only [List.cons_append, renameAll, ih]

mutual

theorem Statement.placed_rename (inLoop : Bool) :
    (s : Statement) → (s.rename ρ).placed inLoop = s.placed inLoop
  | .bind _ | .eval _ | .exitLoop | .nextRound => rfl
  | .branch branches otherwise => by
    rw [Statement.rename, Statement.placed, Statement.placed, placedBranches_rename inLoop branches,
      placedOtherwise_rename inLoop otherwise]
  | .whileLoop _ body | .forLoop _ _ _ body => by
    rw [Statement.rename, Statement.placed, Statement.placed, placedAll_rename true body]

theorem placedAll_rename (inLoop : Bool) :
    (ss : List Statement) → placedAll inLoop (renameAll ρ ss) = placedAll inLoop ss
  | [] => rfl
  | s :: rest => by
    rw [renameAll, placedAll, placedAll, s.placed_rename inLoop, placedAll_rename inLoop rest]

theorem placedBranches_rename (inLoop : Bool) : (branches : List (Expr × List Statement)) →
    placedBranches inLoop (renameBranches ρ branches) = placedBranches inLoop branches
  | [] => rfl
  | (cond, body) :: rest => by
    rw [renameBranches, placedBranches, placedBranches, placedAll_rename inLoop body,
      placedBranches_rename inLoop rest]

theorem placedOtherwise_rename (inLoop : Bool) : (otherwise : Option (List Statement)) →
    placedOtherwise inLoop (renameOtherwise ρ otherwise) = placedOtherwise inLoop otherwise
  | none => rfl
  | some body => placedAll_rename inLoop body

end

/-! Frames. -/

theorem settle_rename (frames : List Frame) :
    settle (frames.map (Frame.rename ρ)) = (settle frames).map (Frame.rename ρ) := by
  induction frames with
  | nil => rfl
  | cons f below ih =>
    cases f with
    | loop => rfl
    | block rest =>
      cases rest with
      | nil => exact ih
      | cons => rfl

theorem afterLoop?_rename (frames : List Frame) :
    afterLoop? (frames.map (Frame.rename ρ)) = (afterLoop? frames).map (·.map (Frame.rename ρ)) := by
  induction frames with
  | nil => rfl
  | cons f below ih =>
    cases f with
    | loop => rfl
    | block => exact ih

theorem fromLoop?_rename (frames : List Frame) :
    fromLoop? (frames.map (Frame.rename ρ)) = (fromLoop? frames).map (·.map (Frame.rename ρ)) := by
  induction frames with
  | nil => rfl
  | cons f below ih =>
    cases f with
    | loop => rfl
    | block => exact ih

end Syntax

/-! Dialogues. -/

variable {σ α β γ δ : Type} {ρ : String → String}

/-- Whether two dialogues ask for the same calls and come to values that are related; where the one fails,
the other does with its error renamed. -/
inductive Dialogue.Renamed (ρ : String → String) (R : α → β → Prop) : Dialogue α → Dialogue β → Prop
  | value {a : α} {b : β} (h : R a b) : Renamed ρ R (.value a) (.value b)
  | fail (e : Error) : Renamed ρ R (.fail e) (.fail (e.rename ρ))
  | ask {p : Primitive} {args : List Value} {next : Value → Dialogue α} {next' : Value → Dialogue β}
      (h : ∀ v, Renamed ρ R (next v) (next' v)) : Renamed ρ R (.ask p args next) (.ask p args next')

namespace Dialogue.Renamed

variable {R : α → β → Prop} {Q : γ → δ → Prop} {x : Dialogue α} {y : Dialogue β}

theorem pure {a : α} {b : β} (h : R a b) :
    Renamed ρ R (Pure.pure a : Dialogue α) (Pure.pure b : Dialogue β) := .value h

theorem bind {f : α → Dialogue γ} {g : β → Dialogue δ} (h : Renamed ρ R x y)
    (hf : ∀ a b, R a b → Renamed ρ Q (f a) (g b)) : Renamed ρ Q (x >>= f) (y >>= g) := by
  change Renamed ρ Q (x.andThen f) (y.andThen g)
  induction h with
  | value h => exact hf _ _ h
  | fail e => exact .fail e
  | ask _ ih => exact .ask ih

theorem bind_eq {z : Dialogue α} {f : α → Dialogue γ} {g : α → Dialogue δ} (h : Renamed ρ Eq x z)
    (hf : ∀ a, Renamed ρ Q (f a) (g a)) : Renamed ρ Q (x >>= f) (z >>= g) :=
  h.bind fun a _ hab => hab ▸ hf a

theorem call (p : Primitive) (args : List Value) :
    Renamed ρ Eq (Dialogue.call p args) (Dialogue.call p args) := .ask fun _ => .value rfl

theorem fault {cause cause' : Fault} (h : cause' = cause.rename ρ) :
    Renamed ρ R (.fail (.fault cause)) (.fail (.fault cause')) := h ▸ .fail (.fault cause)

theorem ofFault {r : Except Fault α} (h : ∀ cause, r = .error cause → cause.rename ρ = cause) :
    Renamed ρ Eq (Dialogue.ofFault r) (Dialogue.ofFault r) := by
  cases r with
  | ok a => exact .value rfl
  | error cause => exact .fault (h cause rfl).symm

theorem ite {c : Bool} {x x' : Dialogue α} {y y' : Dialogue β} (h : Renamed ρ R x y)
    (h' : Renamed ρ R x' y') : Renamed ρ R (if c then x else x') (if c then y else y') := by
  cases c with
  | true => exact h
  | false => exact h'

end Dialogue.Renamed

/-! Stores. -/

/-- Whether variables have in one store the values that they have under other names in another. -/
def Store.Renamed (ρ : String → String) (store store' : Store) : Prop :=
  ∀ x, store'.get? (ρ x) = store.get? x

/-- Whether a position is another one with other variables. -/
def PositionRenamed (ρ : String → String) (p q : Position) : Prop :=
  q.1 = p.1.map (Frame.rename ρ) ∧ Store.Renamed ρ p.2 q.2

section Units

variable {store store' : Store}

theorem Store.Renamed.define (hρ : Function.Injective ρ) (h : Store.Renamed ρ store store')
    (x : String) (v : Value) : Store.Renamed ρ (store.define x v) (store'.define (ρ x) v) := by
  intro y
  rw [Store.define, Store.define, Dict.get?_insert, Dict.get?_insert, h y]
  simp only [hρ.eq_iff]

theorem Store.read_rename {x : String} (h : store'.get? (ρ x) = store.get? x) :
    Dialogue.Renamed ρ Eq (.ofFault (store.read x)) (.ofFault (store'.read (ρ x))) := by
  rw [Store.read, Store.read, h]
  cases store.get? x with
  | some v => exact .value rfl
  | none => exact .fail (.fault (.unbound x))

theorem Store.assign_rename {R : Store → Store → Prop} {x : String} (v : Value)
    (h : store'.get? (ρ x) = store.get? x) (hR : R (store.define x v) (store'.define (ρ x) v)) :
    Dialogue.Renamed ρ R (.ofFault (store.assign x v)) (.ofFault (store'.assign (ρ x) v)) := by
  rw [Store.assign, Store.assign, h]
  cases store.get? x with
  | some _ => exact .value hR
  | none => exact .fail (.fault (.undeclared x))

/-! Units. -/

theorem member_rename (field : String) (v : Value) (cause : Fault)
    (h : v.member field = .error cause) : cause.rename ρ = cause := by
  cases v <;> cases h <;> rfl

theorem unary_rename (op : UnaryOp) (v : Value) (cause : Fault) (h : op.apply v = .error cause) :
    cause.rename ρ = cause := by
  cases op <;> cases v <;> cases h <;> rfl

theorem binary_rename (op : BinaryOp) (v w : Value) (cause : Fault)
    (h : op.apply v w = .error cause) : cause.rename ρ = cause := by
  have harith : ∀ f, v.arithmetic f w = .error cause → cause.rename ρ = cause := by
    intro f hf
    cases v <;> cases w <;> cases hf <;> rfl
  have hcompare : ∀ f, v.compareBy f w = .error cause → cause.rename ρ = cause := by
    intro f hf
    cases v <;> cases w <;> cases hf <;> rfl
  cases op with
  | add => cases v <;> cases w <;> cases h <;> rfl
  | sub | mul | div | rem => exact harith _ h
  | lt | le | gt | ge => exact hcompare _ h
  | eq | ne | and | or => cases h

mutual

theorem Expr.dialogue_along : (e : Expr) →
    (∀ u ∈ e.uses, store'.get? (ρ u.name) = store.get? u.name) →
    Dialogue.Renamed ρ Eq (e.dialogue store) ((e.rename ρ).dialogue store')
  | .literal v, _ => .pure rfl
  | .var x, h => Store.read_rename (h (.read x) (List.mem_singleton.2 rfl))
  | .member e field, h => (e.dialogue_along h).bind_eq fun v => .ofFault (member_rename field v)
  | .unary op e, h => (e.dialogue_along h).bind_eq fun v => .ofFault (unary_rename op v)
  | .binary op l r, h => by
    have hl := l.dialogue_along fun u hu => h u (List.mem_append_left _ hu)
    have hr := r.dialogue_along fun u hu => h u (List.mem_append_right _ hu)
    cases op with
    | and => exact hl.bind_eq fun _ => .ite (hr.bind_eq fun _ => .pure rfl) (.pure rfl)
    | or => exact hl.bind_eq fun _ => .ite (.pure rfl) (hr.bind_eq fun _ => .pure rfl)
    | add | sub | mul | div | rem | eq | ne | lt | le | gt | ge =>
      exact hl.bind_eq fun v => hr.bind_eq fun w => .ofFault (binary_rename _ v w)
  | .call p args, h => (Expr.dialogueArgs_along args h).bind_eq fun vs => .call p vs

theorem Expr.dialogueArgs_along : (es : List Expr) →
    (∀ u ∈ argUses es, store'.get? (ρ u.name) = store.get? u.name) →
    Dialogue.Renamed ρ Eq (Expr.dialogueArgs store es) (Expr.dialogueArgs store' (Expr.renameArgs ρ es))
  | [], _ => .pure rfl
  | e :: rest, h => (e.dialogue_along fun u hu => h u (List.mem_append_left _ hu)).bind_eq fun _ =>
    (Expr.dialogueArgs_along rest fun u hu => h u (List.mem_append_right _ hu)).bind_eq fun _ => .pure rfl

end

section

variable {R : Store → Store → Prop}

theorem Assignment.dialogue_along (a : Assignment)
    (h : ∀ u ∈ a.uses, store'.get? (ρ u.name) = store.get? u.name)
    (hR : ∀ v, R (store.define a.name v) (store'.define (ρ a.name) v)) :
    Dialogue.Renamed ρ R (a.dialogue store) ((a.rename ρ).dialogue store') := by
  obtain ⟨x, op, e⟩ := a
  have hx : store'.get? (ρ x) = store.get? x := h (.change x) List.mem_cons_self
  have hcurrent : Dialogue.Renamed ρ Eq (.ofFault (store.current x)) (.ofFault (store'.current (ρ x))) := by
    rw [Store.current, Store.current, hx]
    cases store.get? x with
    | some v => exact .value rfl
    | none => exact .fail (.fault (.undeclared x))
  have hoperand := e.dialogue_along fun u hu => h u (List.mem_cons_of_mem _ hu)
  have hassign (v : Value) := Store.assign_rename v hx (hR v)
  cases op with
  | set =>
    refine Dialogue.Renamed.bind_eq (.pure rfl) fun c => hoperand.bind_eq fun v => ?_
    exact Dialogue.Renamed.bind_eq (.pure rfl) hassign
  | add =>
    refine hcurrent.bind_eq fun c => hoperand.bind_eq fun v => ?_
    exact Dialogue.Renamed.bind_eq (.ofFault (binary_rename .add c v)) hassign
  | sub =>
    refine hcurrent.bind_eq fun c => hoperand.bind_eq fun v => ?_
    exact Dialogue.Renamed.bind_eq (.ofFault (binary_rename .sub c v)) hassign

/-- What a binding makes of the variables, where they are still related once one that it writes has a new
value. -/
theorem Binding.dialogue_along (b : Binding)
    (h : ∀ u ∈ b.uses, store'.get? (ρ u.name) = store.get? u.name)
    (hR : ∀ x ∈ b.writes, ∀ v, R (store.define x v) (store'.define (ρ x) v)) :
    Dialogue.Renamed ρ R (b.dialogue store) ((b.rename ρ).dialogue store') := by
  cases b with
  | declare x init =>
    have hx := hR x (List.mem_singleton.2 rfl)
    cases init with
    | none => exact .pure (hx .null)
    | some e => exact (e.dialogue_along h).bind_eq fun v => .pure (hx v)
  | assign a => exact a.dialogue_along h (hR a.name (List.mem_singleton.2 rfl))

end

theorem Expr.dialogue_rename (h : Store.Renamed ρ store store') (e : Expr) :
    Dialogue.Renamed ρ Eq (e.dialogue store) ((e.rename ρ).dialogue store') :=
  e.dialogue_along fun u _ => h u.name

variable (h : Store.Renamed ρ store store')

include h

theorem choiceDialogue_rename (otherwise : Option (List Statement))
    (branches : List (Expr × List Statement)) :
    Dialogue.Renamed ρ (fun o o' => o' = renameOtherwise ρ o) (choiceDialogue store otherwise branches)
      (choiceDialogue store' (renameOtherwise ρ otherwise) (renameBranches ρ branches)) := by
  induction branches with
  | nil => exact .pure rfl
  | cons branch rest ih =>
    obtain ⟨cond, body⟩ := branch
    exact (cond.dialogue_rename h).bind_eq fun _ => .ite (.pure rfl) ih

theorem Loop.testDialogue_rename (l : Loop) :
    Dialogue.Renamed ρ Eq (l.testDialogue store) ((l.rename ρ).testDialogue store') := by
  obtain ⟨init, cond, update, body⟩ := l
  cases cond with
  | none => exact .pure rfl
  | some e => exact (e.dialogue_rename h).bind_eq fun _ => .pure rfl

variable (hρ : Function.Injective ρ)

include hρ

theorem Assignment.dialogue_rename (a : Assignment) :
    Dialogue.Renamed ρ (Store.Renamed ρ) (a.dialogue store) ((a.rename ρ).dialogue store') :=
  a.dialogue_along (fun u _ => h u.name) (h.define hρ a.name)

theorem Binding.dialogue_rename (b : Binding) :
    Dialogue.Renamed ρ (Store.Renamed ρ) (b.dialogue store) ((b.rename ρ).dialogue store') :=
  b.dialogue_along (fun u _ => h u.name) fun x _ => h.define hρ x

theorem Loop.dialogue_rename (l : Loop) (phase : LoopPhase) (frames : List Frame) :
    Dialogue.Renamed ρ (PositionRenamed ρ) (l.dialogue store phase frames)
      ((l.rename ρ).dialogue store' phase (frames.map (Frame.rename ρ))) := by
  have htest : Dialogue.Renamed ρ (PositionRenamed ρ)
      (do if ← l.testDialogue store then return (.block l.body :: .loop l .update :: frames, store)
          else return (frames, store))
      (do if ← (l.rename ρ).testDialogue store' then
            return (.block (l.rename ρ).body :: .loop (l.rename ρ) .update ::
              frames.map (Frame.rename ρ), store')
          else return (frames.map (Frame.rename ρ), store')) := by
    exact (l.testDialogue_rename h).bind_eq fun _ => .ite (.pure ⟨rfl, h⟩) (.pure ⟨rfl, h⟩)
  obtain ⟨init, cond, update, body⟩ := l
  cases phase with
  | test => exact htest
  | init =>
    cases init with
    | none => exact htest
    | some b => exact (b.dialogue_rename h hρ).bind fun _ _ hafter => .pure ⟨rfl, hafter⟩
  | update =>
    cases update with
    | none => cases init <;> exact htest
    | some a => cases init <;> exact (a.dialogue_rename h hρ).bind fun _ _ hafter => .pure ⟨rfl, hafter⟩

theorem Statement.dialogue_rename (s : Statement) (frames : List Frame) :
    Dialogue.Renamed ρ (PositionRenamed ρ) (s.dialogue store frames)
      ((s.rename ρ).dialogue store' (frames.map (Frame.rename ρ))) := by
  cases s with
  | bind b => exact (b.dialogue_rename h hρ).bind fun _ _ hafter => .pure ⟨rfl, hafter⟩
  | eval e => exact (e.dialogue_rename h).bind_eq fun _ => .pure ⟨rfl, h⟩
  | branch branches otherwise =>
    refine (choiceDialogue_rename h otherwise branches).bind fun chosen _ hchosen => ?_
    subst hchosen
    cases chosen with
    | none => exact .pure ⟨rfl, h⟩
    | some body => exact .pure ⟨rfl, h⟩
  | whileLoop cond body => exact Loop.dialogue_rename h hρ ⟨none, some cond, none, body⟩ .test frames
  | forLoop init cond update body =>
    exact Loop.dialogue_rename h hρ ⟨init, cond, update, body⟩ .init frames
  | exitLoop =>
    simp only [rename, dialogue, afterLoop?_rename]
    cases afterLoop? frames with
    | none => exact .fail (.fault (.outsideLoop .breakWord))
    | some below => exact .pure ⟨rfl, h⟩
  | nextRound =>
    simp only [rename, dialogue, fromLoop?_rename]
    cases fromLoop? frames with
    | none => exact .fail (.fault (.outsideLoop .continueWord))
    | some below => exact .pure ⟨rfl, h⟩

theorem unitDialogue_rename (frames : List Frame) :
    Dialogue.Renamed ρ (PositionRenamed ρ) (unitDialogue store frames)
      (unitDialogue store' (frames.map (Frame.rename ρ))) := by
  cases frames with
  | nil => exact .pure ⟨rfl, h⟩
  | cons f below =>
    cases f with
    | loop l phase => exact l.dialogue_rename h hρ phase below
    | block rest =>
      cases rest with
      | nil => exact .pure ⟨settle_rename ρ (.block [] :: below), h⟩
      | cons s rest => exact s.dialogue_rename h hρ (.block rest :: below)

end Units

/-! Machines. -/

def Interrupt.rename (ρ : String → String) : Interrupt → Interrupt
  | .suspend call => .suspend call
  | .fail e => .fail (e.rename ρ)

/-- Doing both dialogues again comes to the same, but for the names of variables. -/
theorem Dialogue.Renamed.replay {R : α → β → Prop} {x : Dialogue α} {y : Dialogue β}
    (h : Dialogue.Renamed ρ R x y) (host : Host σ) (tape : Tape σ) :
    match x.replay host tape with
      | (.ok a, after) => ∃ b, y.replay host tape = (.ok b, after) ∧ R a b
      | (.error i, after) => y.replay host tape = (.error (i.rename ρ), after) := by
  induction h generalizing tape with
  | value h => exact ⟨_, rfl, h⟩
  | fail e => rfl
  | @ask p args next next' _ ih =>
    simp only [Dialogue.replay, Evaluation.bind_apply]
    rcases hr : p.call host args tape with ⟨(call | e) | v, after⟩
    · rfl
    · obtain ⟨cause, rfl⟩ := Primitive.call_fails (congrArg (·.1) hr)
      rfl
    · exact ih v after

/-- Whether a machine is another one with other variables. -/
structure Machine.Renamed (ρ : String → String) (m m' : Machine) : Prop where
  frames : m'.frames = m.frames.map (Frame.rename ρ)
  store : Store.Renamed ρ m.store m'.store
  recorded : m'.recorded = m.recorded
  status : m'.status = m.status
  units : m'.units = m.units

/-- What two machines do that is the same but for the names of variables. -/
structure StepRenamed (ρ : String → String) (r r' : Except Error Step × Machine × σ) : Prop where
  result : r'.1 = r.1.mapError (Error.rename ρ)
  machine : Machine.Renamed ρ r.2.1 r'.2.1
  host : r'.2.2 = r.2.2

theorem mapError_continue {r : Except Error Step}
    (h : r.mapError (Error.rename ρ) = .ok .continue) : r = .ok .continue := by
  cases r with
  | error e => cases h
  | ok step =>
    cases h
    rfl

namespace Machine.Renamed

variable {m m' : Machine}

theorem start (program : Program) :
    Renamed ρ (.ofProgram program) (.ofProgram (renameAll ρ program)) :=
  ⟨rfl, fun _ => rfl, rfl, rfl, rfl⟩

theorem isFinished (h : Renamed ρ m m') : m'.isFinished = m.isFinished := by
  rw [Machine.isFinished, Machine.isFinished, h.status]

theorem halt (h : Renamed ρ m m') : Renamed ρ m.halt m'.halt :=
  ⟨rfl, h.store, rfl, rfl, h.units⟩

theorem advance (h : Renamed ρ m m') {p q : Position} (hp : PositionRenamed ρ p q) :
    Renamed ρ (m.advance p) (m'.advance q) := by
  obtain ⟨hframes, hstore⟩ := hp
  have hsettled : settle q.1 = (settle p.1).map (Frame.rename ρ) := by rw [hframes, settle_rename]
  refine ⟨hsettled, hstore, rfl, ?_, congrArg (· + 1) h.units⟩
  rw [Machine.advance, Machine.advance, hsettled, List.isEmpty_map]

theorem step (hρ : Function.Injective ρ) (h : Renamed ρ m m') (host : Host σ) (s : σ) :
    StepRenamed ρ (m.step host s) (m'.step host s) := by
  have hsettle : Script.settle m'.frames = (Script.settle m.frames).map (Frame.rename ρ) := by
    rw [h.frames, settle_rename]
  have hsuspended (vs : List Value) (call : AsyncCall) : Renamed ρ
      { m with frames := Script.settle m.frames, recorded := vs, status := .awaiting call }
      { m' with frames := Script.settle m'.frames, recorded := vs, status := .awaiting call } :=
    ⟨hsettle, h.store, rfl, rfl, h.units⟩
  cases hstatus : m.status with
  | finished | awaiting =>
    rw [Machine.step, Machine.step, h.status, hstatus]
    exact ⟨rfl, h, rfl⟩
  | ready =>
    have hstatus' : m'.status = .ready := by rw [h.status, hstatus]
    cases hframes : Script.settle m.frames with
    | nil =>
      rw [hframes] at hsettle
      rw [Machine.step, Machine.step, hstatus, hstatus', hframes, hsettle]
      exact ⟨rfl, ⟨rfl, h.store, h.recorded, rfl, h.units⟩, rfl⟩
    | cons f below =>
      have hne : Script.settle m.frames ≠ [] := by rw [hframes]; exact List.cons_ne_nil _ _
      have hne' : Script.settle m'.frames ≠ [] := by
        rw [hsettle, hframes]
        exact List.cons_ne_nil _ _
      -- a unit is done again from its start after each answer; both replay the same answers
      have hunit := (unitDialogue_rename h.store hρ (Script.settle m.frames)).replay host
        ⟨.ofEntries m.recorded, s⟩
      rw [m.step_of_ready host hstatus hne s, m'.step_of_ready host hstatus' hne' s]
      unfold Machine.unit
      rw [hsettle, h.recorded]
      rcases hx : (unitDialogue m.store (Script.settle m.frames)).replay host
        ⟨.ofEntries m.recorded, s⟩ with ⟨(call | e) | p, tape⟩
      · rw [hx] at hunit
        dsimp only at hunit
        rw [hunit]
        exact ⟨rfl, hsettle ▸ hsuspended _ call, rfl⟩
      · rw [hx] at hunit
        dsimp only at hunit
        rw [hunit]
        exact ⟨rfl, h.halt, rfl⟩
      · rw [hx] at hunit
        obtain ⟨q, hunit, hq⟩ := hunit
        rw [hunit]
        have hafter := h.advance hq
        refine ⟨?_, hafter, rfl⟩
        dsimp only
        rw [hafter.isFinished]
        rfl

theorem runBounded (hρ : Function.Injective ρ) (host : Host σ) (budget : Nat) (h : Renamed ρ m m')
    (s : σ) : StepRenamed ρ (m.runBounded host budget s) (m'.runBounded host budget s) := by
  induction budget generalizing m m' s with
  | zero => exact ⟨by rw [Machine.runBounded, Machine.runBounded, h.isFinished]; rfl, h, rfl⟩
  | succ budget ih =>
    obtain ⟨hresult, hmachine, hhost⟩ := h.step hρ host s
    unfold Machine.runBounded
    rcases hx : m.step host s with ⟨r, n, s₁⟩
    rcases hy : m'.step host s with ⟨r', n', s₂⟩
    rw [hx, hy] at hresult hmachine hhost
    dsimp only at hresult hmachine hhost
    subst hresult hhost
    rcases r with e | _ | call | _ | _
    · exact ⟨rfl, hmachine, rfl⟩
    · exact ih hmachine _
    · exact ⟨rfl, hmachine, rfl⟩
    · exact ⟨rfl, hmachine, rfl⟩
    · exact ⟨rfl, hmachine, rfl⟩

theorem runs (hρ : Function.Injective ρ) {host : Host σ} (h : Renamed ρ m m') {s : σ}
    {r : Except Error Step × Machine × σ} (hruns : m.Runs host s r) :
    ∃ r', m'.Runs host s r' ∧ StepRenamed ρ r r' := by
  obtain ⟨hends, budget, rfl⟩ := Machine.runs_iff.1 hruns
  have hrun := h.runBounded hρ host budget s
  refine ⟨_, Machine.runs_iff.2 ⟨fun hgoes => hends ?_, budget, rfl⟩, hrun⟩
  rw [hrun.result] at hgoes
  exact mapError_continue hgoes

theorem runs_back (hρ : Function.Injective ρ) {host : Host σ} (h : Renamed ρ m m') {s : σ}
    {r' : Except Error Step × Machine × σ} (hruns : m'.Runs host s r') :
    ∃ r, m.Runs host s r ∧ StepRenamed ρ r r' := by
  obtain ⟨hends, budget, rfl⟩ := Machine.runs_iff.1 hruns
  have hrun := h.runBounded hρ host budget s
  refine ⟨_, Machine.runs_iff.2 ⟨fun hgoes => hends ?_, budget, rfl⟩, hrun⟩
  rw [hrun.result, hgoes]
  rfl

end Machine.Renamed

/-! Drivers. -/

/-- Whether a driver is another one with other variables: it has the same trace and the same end, but for
the name of a variable that is missed. -/
structure Driver.Renamed (ρ : String → String) (d d' : Driver σ) : Prop where
  machine : Machine.Renamed ρ d.machine d'.machine
  world : d'.world = d.world
  delivered : d'.delivered = d.delivered
  ended : d'.ended = d.ended.map (·.mapError (Error.rename ρ))

namespace Driver.Renamed

variable {host : Host σ} {d d' : Driver σ}

theorem start (program : Program) (s : σ) :
    Renamed ρ (.start program s) (.start (renameAll ρ program) s) :=
  ⟨.start program, rfl, rfl, rfl⟩

theorem hear (h : Renamed ρ d d') {r r' : Except Error Step × Machine × Watched σ}
    (hr : StepRenamed ρ r r') : Renamed ρ (d.hear r) (d'.hear r') := by
  obtain ⟨hresult, hmachine, hhost⟩ := hr
  obtain ⟨r, n, w⟩ := r
  obtain ⟨r', n', w'⟩ := r'
  dsimp only at hresult hmachine hhost
  subst hresult hhost
  have hended (x : Except Error Unit) : (d'.ended <|> some (x.mapError (Error.rename ρ))) =
      (d.ended <|> some x).map (·.mapError (Error.rename ρ)) := by
    rw [h.ended]
    cases d.ended <;> rfl
  rcases r with e | _ | call | _ | _
  · exact ⟨hmachine, rfl, h.delivered, hended (.error e)⟩
  · exact ⟨hmachine, rfl, h.delivered, h.ended⟩
  · exact ⟨hmachine, rfl, h.delivered, h.ended⟩
  · exact ⟨hmachine, rfl, h.delivered, h.ended⟩
  · exact ⟨hmachine, rfl, h.delivered, hended (.ok ())⟩

theorem deliver (h : Renamed ρ d d') (v : Value) : Renamed ρ (d.deliver v) (d'.deliver v) := by
  obtain ⟨⟨hframes, hstore, hrecorded, hstatus, hunits⟩, hworld, hdelivered, hended⟩ := h
  unfold Driver.deliver Machine.resolve?
  rw [hstatus]
  cases d.machine.status with
  | ready | finished => exact ⟨⟨hframes, hstore, hrecorded, hstatus, hunits⟩, hworld, hdelivered, hended⟩
  | awaiting call =>
    refine ⟨⟨hframes, hstore, ?_, rfl, hunits⟩, hworld, congrArg (· ++ [v]) hdelivered, hended⟩
    exact congrArg (· ++ [v]) hrecorded

theorem called (hρ : Function.Injective ρ) (h : Renamed ρ d d') {c : DriverCall} {e : Driver σ}
    (hcall : d.Called host c e) : ∃ e', d'.Called host c e' ∧ Renamed ρ e e' := by
  cases hcall with
  | step => exact ⟨_, .step, h.hear (h.world ▸ h.machine.step hρ host.watched d.world)⟩
  | run hruns =>
    obtain ⟨r', hruns', hr⟩ := h.machine.runs hρ hruns
    exact ⟨_, .run (h.world ▸ hruns'), h.hear hr⟩
  | runBounded budget =>
    exact ⟨_, .runBounded budget,
      h.hear (h.world ▸ h.machine.runBounded hρ host.watched budget d.world)⟩
  | resolve v => exact ⟨_, .resolve v, h.deliver v⟩

theorem called_back (hρ : Function.Injective ρ) (h : Renamed ρ d d') {c : DriverCall} {e' : Driver σ}
    (hcall : d'.Called host c e') : ∃ e, d.Called host c e ∧ Renamed ρ e e' := by
  cases hcall with
  | step => exact ⟨_, .step, h.hear (h.world ▸ h.machine.step hρ host.watched d.world)⟩
  | run hruns =>
    obtain ⟨r, hruns', hr⟩ := h.machine.runs_back hρ (h.world ▸ hruns)
    exact ⟨_, .run hruns', h.hear hr⟩
  | runBounded budget =>
    exact ⟨_, .runBounded budget,
      h.hear (h.world ▸ h.machine.runBounded hρ host.watched budget d.world)⟩
  | resolve v => exact ⟨_, .resolve v, h.deliver v⟩

theorem driven (hρ : Function.Injective ρ) (h : Renamed ρ d d') {calls : List DriverCall} {e : Driver σ}
    (hdriven : Driven host calls d e) : ∃ e', Driven host calls d' e' ∧ Renamed ρ e e' := by
  induction hdriven generalizing d' with
  | nil heq => exact ⟨d', .nil rfl, heq ▸ h⟩
  | cons hcall _ ih =>
    obtain ⟨f', hcall', hf⟩ := h.called hρ hcall
    obtain ⟨e', hdriven', he⟩ := ih hf
    exact ⟨e', .cons hcall' hdriven', he⟩

theorem driven_back (hρ : Function.Injective ρ) (h : Renamed ρ d d') {calls : List DriverCall}
    {e' : Driver σ} (hdriven : Driven host calls d' e') :
    ∃ e, Driven host calls d e ∧ Renamed ρ e e' := by
  induction hdriven generalizing d with
  | nil heq => exact ⟨d, .nil rfl, heq ▸ h⟩
  | cons hcall _ ih =>
    obtain ⟨f, hcall', hf⟩ := h.called_back hρ hcall
    obtain ⟨e, hdriven', he⟩ := ih hf
    exact ⟨e, .cons hcall' hdriven', he⟩

end Driver.Renamed

/-! Scripts that use nothing before they have declared it. No error of theirs tells the name of a variable,
so that nothing at all does. -/

/-- Whether two drivers have the same trace, host and answers, have gone through as many units, and wait for
the same call or have come to the same end. -/
structure Driver.Same (d d' : Driver σ) : Prop where
  world : d'.world = d.world
  delivered : d'.delivered = d.delivered
  ended : d'.ended = d.ended
  status : d'.machine.status = d.machine.status
  units : d'.machine.units = d.machine.units

/-- Whether nothing that is done with one of two programs, on any host, comes out otherwise than with the
other one. -/
def Indistinguishable (program program' : Program) : Prop :=
  ∀ {σ : Type} (host : Host σ) (s : σ) (calls : List DriverCall),
    (∀ d, Driver.Driven host calls (.start program s) d →
      ∃ d', Driver.Driven host calls (.start program' s) d' ∧ d.Same d') ∧
    ∀ d', Driver.Driven host calls (.start program' s) d' →
      ∃ d, Driver.Driven host calls (.start program s) d ∧ d.Same d'

theorem Error.rename_eq (ρ : String → String) {e : Error} (h : ∀ u : Use, e ≠ .fault u.fault) :
    e.rename ρ = e := by
  cases e with
  | misuse => rfl
  | fault cause =>
    cases cause with
    | unbound x => exact absurd rfl (h (.read x))
    | undeclared x => exact absurd rfl (h (.change x))
    | _ => rfl

theorem Driver.Renamed.same {d d' : Driver σ} (h : Driver.Renamed ρ d d')
    (hends : ∀ u : Use, d.ended ≠ some (.error (.fault u.fault))) : d.Same d' := by
  refine ⟨h.world, h.delivered, ?_, h.machine.status, h.machine.units⟩
  rw [h.ended]
  rcases hd : d.ended with _ | e | _
  · rfl
  · have he : e.rename ρ = e := Error.rename_eq ρ fun u hu => hends u (hd.trans (by rw [hu]))
    exact congrArg (fun e => some (Except.error e)) he
  · rfl

/-- A script without free uses is not to be told from it with its variables called otherwise. -/
theorem indistinguishable_rename (hρ : Function.Injective ρ) {program : Program}
    (h : ∀ u, u ∉ freeAll program) : Indistinguishable program (renameAll ρ program) := by
  intro σ host s calls
  have hsame {d d' : Driver σ} (hd : Driver.Driven host calls (.start program s) d)
      (hr : Driver.Renamed ρ d d') : d.Same d' := hr.same fun u hu => h u (free_of_missed hd hu)
  refine ⟨fun d hd => ?_, fun d' hd' => ?_⟩
  · obtain ⟨d', hd', hr⟩ := (Driver.Renamed.start program s).driven hρ hd
    exact ⟨d', hd', hsame hd hr⟩
  · obtain ⟨d, hd, hr⟩ := (Driver.Renamed.start program s).driven_back hρ hd'
    exact ⟨d, hd, hsame hd hr⟩

end ScopeBlocks.Script
