import ScopeBlocks.Proofs.Script.Reference

/-! Scripts run along their syntax tree, without frames. What a statement does is put together from what
its parts do: a loop goes round until its test fails or its body leaves it, a jump is handed upwards until
a loop takes it. A run may be cut off before any unit, and keeps a list of the units it has done. -/
namespace ScopeBlocks.Script

/-- What one unit of a script does: a clause of a loop, or a statement without what is inside it. -/
inductive Piece where
  | statement (s : Statement)
  | init (b : Binding)
  | test (cond : Option Expr)
  | update (a : Assignment)

/-- A run along the tree: the units that it has done, and how many more it may do. -/
structure Walk (σ : Type) where
  store : Store
  world : Watched σ
  answers : List Value
  left : Nat
  pieces : List Piece

/-- How a part of a script ends: after its last statement, with a jump, or with the whole run, which is cut
off, has failed or has no value for a call. -/
inductive Completion where
  | normal
  | broke
  | continued
  | cut
  | failed (error : Error)
  | starved (call : AsyncCall)
  deriving DecidableEq, Repr

def Completion.isJump : Completion → Bool
  | .broke | .continued => true
  | _ => false

/-- What a part of a script makes of a run. -/
abbrev Behaviour (σ : Type) := Walk σ → Completion × Walk σ

namespace Behaviour

variable {σ α β : Type} (host : Host σ)

def done : Behaviour σ := fun w => (.normal, w)

/-- A unit, where one is left, and what comes of its result. -/
def unit (piece : Piece) (d : Store → Dialogue α) (next : α → Behaviour σ) : Behaviour σ := fun w =>
  match w.left with
  | 0 => (.cut, w)
  | left + 1 =>
    match (d w.store).live host w.world w.answers with
    | (.value a, world, answers) =>
      next a { w with world, answers, left, pieces := w.pieces ++ [piece] }
    | (.failed e, world, answers) => (.failed e, { w with world, answers })
    | (.starved call, world, answers) => (.starved call, { w with world, answers })

/-- A unit that leaves new variables behind. -/
def storing (piece : Piece) (d : Store → Dialogue Store) : Behaviour σ :=
  unit host piece d fun store w => (.normal, { w with store })

def andThen (x y : Behaviour σ) : Behaviour σ := fun w =>
  match x w with
  | (.normal, w) => y w
  | ended => ended

/-- The body of a loop before its next round, which a jump to it begins and a break leaves out. -/
def before (body next : Behaviour σ) : Behaviour σ := fun w =>
  match body w with
  | (.normal, w) | (.continued, w) => next w
  | (.broke, w) => (.normal, w)
  | ended => ended

end Behaviour

namespace Loop

open Behaviour

variable {σ : Type} (host : Host σ) (l : Loop)

def initWalk : Behaviour σ :=
  match l.init with
  | none => done
  | some b => storing host (.init b) fun store => b.dialogue store

def updateWalk : Behaviour σ :=
  match l.update with
  | none => done
  | some a => storing host (.update a) fun store => a.dialogue store

/-- Rounds of a loop, at most as many as given. -/
def rounds (body : Behaviour σ) : Nat → Behaviour σ
  | 0 => fun w => (.cut, w)
  | n + 1 => unit host (.test l.cond) l.testDialogue fun goesOn =>
    if goesOn then body.before ((l.updateWalk host).andThen (rounds body n)) else done

/-- The rounds of a loop. Each one takes a unit, so that those are enough which the run could still do. -/
def walk (body : Behaviour σ) : Behaviour σ := fun w => l.rounds host body (w.left + 1) w

end Loop

section Walks

open Behaviour

variable {σ : Type} (host : Host σ)

mutual

def Statement.walk : Statement → Behaviour σ
  | .bind b => storing host (.statement (.bind b)) fun store => b.dialogue store
  | .eval e => unit host (.statement (.eval e)) (fun store => e.dialogue store) fun _ => done
  | .branch branches otherwise =>
    unit host (.statement (.branch branches otherwise))
      (fun store => choiceWalk store (otherwiseWalk otherwise) branches) id
  | .whileLoop cond body => Loop.walk host ⟨none, some cond, none, body⟩ (walkAll body)
  | .forLoop init cond update body =>
    (Loop.initWalk host ⟨init, cond, update, body⟩).andThen
      (Loop.walk host ⟨init, cond, update, body⟩ (walkAll body))
  | .exitLoop => unit host (.statement .exitLoop) (fun _ => .value ()) fun _ w => (.broke, w)
  | .nextRound => unit host (.statement .nextRound) (fun _ => .value ()) fun _ w => (.continued, w)

def walkAll : List Statement → Behaviour σ
  | [] => done
  | s :: rest => s.walk.andThen (walkAll rest)

/-- What the first branch does whose condition holds; no later condition is looked at. -/
def choiceWalk (store : Store) (otherwise : Behaviour σ) :
    List (Expr × List Statement) → Dialogue (Behaviour σ)
  | [] => return otherwise
  | (cond, body) :: rest => do
    if (← cond.dialogue store).truthy then return walkAll body
    else choiceWalk store otherwise rest

def otherwiseWalk : Option (List Statement) → Behaviour σ
  | none => done
  | some body => walkAll body

end

/-- The first units of a program, at most as many as given. -/
def Program.walk (program : Program) (s : σ) (answers : List Value) (units : Nat) : Completion × Walk σ :=
  walkAll host program ⟨.empty, ⟨s, []⟩, answers, units, []⟩

end Walks

end ScopeBlocks.Script
