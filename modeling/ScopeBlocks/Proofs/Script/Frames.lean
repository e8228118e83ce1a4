import ScopeBlocks.Proofs.Script.Replay
import ScopeBlocks.Proofs.Script.Structured
import ScopeBlocks.Proofs.Script.Writing

/-! The frames of a machine against the syntax tree. What stands above some frames does what its tree does,
and then the frames below go on: those that are next after a normal end, those after the innermost loop
after a break, those from that loop on after a jump to its next round. -/
namespace ScopeBlocks.Script

namespace Dialogue

variable {σ α β γ : Type} {R : α → β → Prop}

/-- Two dialogues that ask for the same calls and end alike, with related values if they have any. -/
inductive Rel (R : α → β → Prop) : Dialogue α → Dialogue β → Prop where
  | value {a : α} {b : β} (h : R a b) : Rel R (.value a) (.value b)
  | fail (e : Error) : Rel R (.fail e) (.fail e)
  | ask {p : Primitive} {args : List Value} {f : Value → Dialogue α} {g : Value → Dialogue β}
      (h : ∀ v, Rel R (f v) (g v)) : Rel R (.ask p args f) (.ask p args g)

theorem Rel.andThen (x : Dialogue γ) {f : γ → Dialogue α} {g : γ → Dialogue β}
    (h : ∀ c, Rel R (f c) (g c)) : Rel R (x.andThen f) (x.andThen g) := by
  induction x with
  | value c => exact h c
  | fail e => exact .fail e
  | ask p args next ih => exact .ask ih

theorem Rel.refl (x : Dialogue α) : Rel Eq x x := by
  induction x with
  | value a => exact .value rfl
  | fail e => exact .fail e
  | ask p args next ih => exact .ask ih

theorem Rel.map {Q : γ → β → Prop} {x : Dialogue γ} {y : Dialogue β} (h : Rel Q x y)
    {f : γ → Dialogue α} (hf : ∀ c b, Q c b → Rel R (f c) (.value b)) : Rel R (x.andThen f) y := by
  induction h with
  | value h => exact hf _ _ h
  | fail e => exact .fail e
  | ask _ ih => exact .ask ih

theorem Rel.live {x : Dialogue α} {y : Dialogue β} (h : Rel R x y) (host : Host σ) (w : Watched σ)
    (answers : List Value) :
    (∃ a b w' rest, R a b ∧ x.live host w answers = (.value a, w', rest) ∧
      y.live host w answers = (.value b, w', rest)) ∨
    (∃ e w' rest, x.live host w answers = (.failed e, w', rest) ∧
      y.live host w answers = (.failed e, w', rest)) ∨
    ∃ call w' rest, x.live host w answers = (.starved call, w', rest) ∧
      y.live host w answers = (.starved call, w', rest) := by
  induction h generalizing w answers with
  | value h => exact .inl ⟨_, _, _, _, h, rfl, rfl⟩
  | fail e => exact .inr (.inl ⟨e, w, answers, rfl, rfl⟩)
  | @ask p args f g h ih =>
    have hp := p.performed host.watched args
    generalize hx : p.perform host.watched args = x at hp
    cases hp with
    | print text | prompt message numeric | mark id =>
      rw [live_ask_of_onHost hx, live_ask_of_onHost hx]
      exact ih _ _ answers
    | fail e => exact .inr (.inl ⟨e, w, answers, live_ask_of_fail hx, live_ask_of_fail hx⟩)
    | suspend call =>
      cases answers with
      | nil =>
        exact .inr (.inr ⟨call, _, _, live_ask_of_suspend_nil hx, live_ask_of_suspend_nil hx⟩)
      | cons v answers =>
        rw [live_ask_of_suspend hx, live_ask_of_suspend hx]
        exact ih v _ answers

end Dialogue

namespace Behaviour

variable {σ α β : Type} {host : Host σ}

theorem unit_of_left {piece : Piece} {d : Store → Dialogue α} {next : α → Behaviour σ} {w : Walk σ}
    (h : w.left = 0) : unit host piece d next w = (.cut, w) := by
  rw [unit, h]

theorem unit_congr {R : α → β → Prop} {piece : Piece} {d : Store → Dialogue α} {e : Store → Dialogue β}
    {next : α → Behaviour σ} {next' : β → Behaviour σ} {w : Walk σ} (hd : (d w.store).Rel R (e w.store))
    (h : ∀ a b, R a b → ∀ w', w'.store = w.store → w'.left < w.left → next a w' = next' b w') :
    unit host piece d next w = unit host piece e next' w := by
  obtain ⟨store, world, answers, left, pieces⟩ := w
  cases left with
  | zero => rw [unit_of_left rfl, unit_of_left rfl]
  | succ left =>
    rcases hd.live host world answers with ⟨a, b, w', rest, hab, hx, hy⟩ | ⟨e, w', rest, hx, hy⟩ |
      ⟨call, w', rest, hx, hy⟩
    · simp only [unit, hx, hy]
      exact h a b hab _ rfl (Nat.lt_succ_self left)
    · simp only [unit, hx, hy]
    · simp only [unit, hx, hy]

/-- A behaviour that gives no units back, and that ends with a jump in loops only. -/
def Tame (inLoop : Bool) (x : Behaviour σ) : Prop :=
  ∀ w, (x w).2.left ≤ w.left ∧ ((x w).1.isJump = true → inLoop = true)

namespace Tame

variable {inLoop : Bool}

theorem stays {c : Completion} (h : c.isJump = true → inLoop = true) :
    Tame inLoop fun w : Walk σ => (c, w) := fun _ => ⟨Nat.le_refl _, h⟩

theorem done : Tame inLoop (Behaviour.done : Behaviour σ) := stays fun h => nomatch h

theorem unit_of_rel {R : α → β → Prop} {piece : Piece} {d : Store → Dialogue α}
    {e : Store → Dialogue β} {next : β → Behaviour σ} (hd : ∀ store, (d store).Rel R (e store))
    (h : ∀ a b, R a b → (next b).Tame inLoop) : (Behaviour.unit host piece e next).Tame inLoop := by
  intro w
  obtain ⟨store, world, answers, left, pieces⟩ := w
  cases left with
  | zero => exact ⟨Nat.le_refl _, fun hj => nomatch hj⟩
  | succ left =>
    rcases (hd store).live host world answers with ⟨a, b, w', rest, hab, -, hx⟩ | ⟨e, w', rest, -, hx⟩ |
      ⟨call, w', rest, -, hx⟩
    · have hnext := h a b hab ⟨store, w', rest, left, pieces ++ [piece]⟩
      simp only [Behaviour.unit, hx]
      exact ⟨Nat.le_succ_of_le hnext.1, hnext.2⟩
    · simp only [Behaviour.unit, hx]
      exact ⟨Nat.le_refl _, fun hj => nomatch hj⟩
    · simp only [Behaviour.unit, hx]
      exact ⟨Nat.le_refl _, fun hj => nomatch hj⟩

theorem unit {piece : Piece} {d : Store → Dialogue α} {next : α → Behaviour σ}
    (h : ∀ a, (next a).Tame inLoop) : (Behaviour.unit host piece d next).Tame inLoop :=
  unit_of_rel (fun store => .refl (d store)) fun _ a _ => h a

theorem storing {piece : Piece} {d : Store → Dialogue Store} :
    (storing host piece d).Tame inLoop := unit fun _ _ => ⟨Nat.le_refl _, fun hj => nomatch hj⟩

theorem andThen {x y : Behaviour σ} (hx : x.Tame inLoop) (hy : y.Tame inLoop) :
    (x.andThen y).Tame inLoop := by
  intro w
  have hw := hx w
  rw [Behaviour.andThen]
  generalize x w = r at hw
  obtain ⟨c, w'⟩ := r
  cases c with
  | normal => exact ⟨Nat.le_trans (hy w').1 hw.1, (hy w').2⟩
  | broke | continued | cut | failed e | starved call => exact hw

theorem before {x y : Behaviour σ} (hx : x.Tame true) (hy : y.Tame inLoop) :
    (x.before y).Tame inLoop := by
  intro w
  have hw := hx w
  rw [Behaviour.before]
  generalize x w = r at hw
  obtain ⟨c, w'⟩ := r
  cases c with
  | normal | continued => exact ⟨Nat.le_trans (hy w').1 hw.1, (hy w').2⟩
  | broke | cut | failed e | starved call => exact ⟨hw.1, fun hj => nomatch hj⟩

end Tame

/-! What follows a behaviour matters only where the behaviour may have come to. -/

theorem andThen_congr {inLoop : Bool} {x y z : Behaviour σ} {w : Walk σ} (hx : x.Tame inLoop)
    (h : ∀ w', w'.left ≤ w.left → y w' = z w') : x.andThen y w = x.andThen z w := by
  have hw := (hx w).1
  rw [andThen, andThen]
  revert hw
  rcases x w with ⟨_ | _ | _ | _ | e | call, w'⟩ <;> intro hw
  · exact h w' hw
  all_goals rfl

theorem before_congr {inLoop : Bool} {x y z : Behaviour σ} {w : Walk σ} (hx : x.Tame inLoop)
    (h : ∀ w', w'.left ≤ w.left → y w' = z w') : x.before y w = x.before z w := by
  have hw := (hx w).1
  rw [before, before]
  revert hw
  rcases x w with ⟨_ | _ | _ | _ | e | call, w'⟩ <;> intro hw
  · exact h w' hw
  · rfl
  · exact h w' hw
  all_goals rfl

end Behaviour

def Loop.piece (l : Loop) : LoopPhase → Piece
  | .init => (l.init.map .init).getD (.test l.cond)
  | .test => .test l.cond
  | .update => (l.update.map .update).getD (.test l.cond)

def Statement.piece : Statement → Piece
  | .whileLoop cond _ => .test (some cond)
  | .forLoop init cond update body => Loop.piece ⟨init, cond, update, body⟩ .init
  | s => .statement s

def pieceAt? : List Frame → Option Piece
  | .block (s :: _) :: _ => some s.piece
  | .loop l phase :: _ => some (l.piece phase)
  | _ => none

section Driving

variable {σ : Type} (host : Host σ)

/-- The units above some frames, at most as many as given. -/
def drive : Nat → List Frame → Behaviour σ
  | 0, frames, w => if (settle frames).isEmpty then (.normal, w) else (.cut, w)
  | n + 1, frames, w =>
    match pieceAt? (settle frames) with
    | none => (.normal, w)
    | some piece => Behaviour.unit host piece (fun store => unitDialogue store (settle frames))
        (fun position w => drive n position.1 { w with store := position.2 }) w

/-- The units above some frames, as many as the run may still do. -/
def goOn (frames : List Frame) : Behaviour σ := fun w => drive host w.left frames w

/-- What follows a part of a script that stood above some frames. -/
def resume (below : List Frame) : Completion × Walk σ → Completion × Walk σ
  | (.normal, w) => goOn host below w
  | (.broke, w) => goOn host ((afterLoop? below).getD []) w
  | (.continued, w) => goOn host ((fromLoop? below).getD []) w
  | stopped => stopped

variable {host}

theorem goOn_settle (frames : List Frame) (w : Walk σ) :
    goOn host (settle frames) w = goOn host frames w := by
  rw [goOn, goOn]
  cases w.left <;> simp only [drive, settle_settle]

theorem goOn_nil (w : Walk σ) : goOn host [] w = (.normal, w) := by
  rw [goOn]
  cases w.left <;> rfl

theorem goOn_unit {frames : List Frame} {piece : Piece} (hs : settle frames = frames)
    (hp : pieceAt? frames = some piece) (w : Walk σ) :
    goOn host frames w = Behaviour.unit host piece (fun store => unitDialogue store frames)
      (fun position w => goOn host position.1 { w with store := position.2 }) w := by
  obtain ⟨store, world, answers, left, pieces⟩ := w
  cases left with
  | zero =>
    rw [Behaviour.unit_of_left rfl, goOn, drive, hs]
    cases frames with
    | nil => cases hp
    | cons frame frames => rfl
  | succ left =>
    rw [goOn, drive, hs, hp]
    rfl

theorem resume_unit (below : List Frame) {α : Type} (piece : Piece) (d : Store → Dialogue α)
    (next : α → Behaviour σ) (w : Walk σ) : resume host below (Behaviour.unit host piece d next w) =
      Behaviour.unit host piece d (fun a w => resume host below (next a w)) w := by
  rw [Behaviour.unit, Behaviour.unit]
  split
  next => rfl
  next => split <;> rfl

end Driving

section Loops

open Behaviour

variable {σ : Type} {host : Host σ}

theorem andThen_unit {α : Type} (piece : Piece) (d : Store → Dialogue α) (next : α → Behaviour σ)
    (y : Behaviour σ) :
    (unit host piece d next).andThen y = unit host piece d fun a => (next a).andThen y := by
  funext w
  obtain ⟨store, world, answers, left, pieces⟩ := w
  cases left with
  | zero => rfl
  | succ left =>
    simp only [andThen, unit]
    rcases (d store).live host world answers with ⟨a | e | call, world, answers⟩ <;> rfl

/-- Frames that do what a part of the tree does, above any others. These have a loop in them where the part
may jump to one. -/
structure Mirrors (host : Host σ) (inLoop : Bool) (above : List Frame) (x : Behaviour σ) : Prop where
  tame : x.Tame inLoop
  goOn : ∀ below, (inLoop = true → (afterLoop? below).isSome = true) → ∀ w,
    goOn host (above ++ below) w = resume host below (x w)

variable {l : Loop} {below : List Frame}

theorem Loop.dialogue_test (store : Store) : l.dialogue store .test below =
    (l.testDialogue store).andThen fun goesOn =>
      .value (if goesOn then .block l.body :: .loop l .update :: below else below, store) := by
  obtain ⟨init, cond, update, body⟩ := l
  change (Loop.testDialogue store ⟨init, cond, update, body⟩).andThen _ = _
  congr 1
  funext goesOn
  cases goesOn <;> rfl

theorem goOn_loop (phase : LoopPhase) (w : Walk σ) : goOn host (.loop l phase :: below) w =
    unit host (l.piece phase) (fun store => l.dialogue store phase below)
      (fun position w => goOn host position.1 { w with store := position.2 }) w :=
  goOn_unit rfl rfl w

theorem goOn_clause {next : Behaviour σ} {phase : LoopPhase} {piece : Piece} {d : Store → Dialogue Store}
    {w : Walk σ} (hp : l.piece phase = piece) (hd : ∀ store, l.dialogue store phase below =
      (d store).andThen fun store => .value (.loop l .test :: below, store))
    (ih : ∀ w', w'.left ≤ w.left → goOn host (.loop l .test :: below) w' = resume host below (next w')) :
    goOn host (.loop l phase :: below) w =
      resume host below (((storing host piece d).andThen next) w) := by
  rw [storing, andThen_unit, resume_unit, goOn_loop, hp]
  refine unit_congr (R := fun position store => position = (.loop l .test :: below, store)) ?_ ?_
  · rw [hd]
    exact (Dialogue.Rel.refl _).map fun _ _ heq => .value (by rw [heq])
  · rintro _ store rfl w' - hleft
    exact ih { w' with store } (Nat.le_of_lt hleft)

theorem goOn_noClause (phase : LoopPhase) {w : Walk σ} (hp : l.piece phase = .test l.cond)
    (hd : ∀ store, l.dialogue store phase below = l.dialogue store .test below) :
    goOn host (.loop l phase :: below) w = goOn host (.loop l .test :: below) w := by
  simp only [goOn_loop, hp, hd]
  rfl

theorem goOn_update {next : Behaviour σ} {w : Walk σ}
    (ih : ∀ w', w'.left ≤ w.left → goOn host (.loop l .test :: below) w' = resume host below (next w')) :
    goOn host (.loop l .update :: below) w =
      resume host below (((l.updateWalk host).andThen next) w) := by
  obtain ⟨init, cond, update, body⟩ := l
  cases update with
  | none => exact (goOn_noClause .update rfl fun _ => rfl).trans (ih w (Nat.le_refl _))
  | some a => exact goOn_clause rfl (fun _ => rfl) ih

theorem goOn_init {next : Behaviour σ} {w : Walk σ}
    (ih : ∀ w', w'.left ≤ w.left → goOn host (.loop l .test :: below) w' = resume host below (next w')) :
    goOn host (.loop l .init :: below) w = resume host below (((l.initWalk host).andThen next) w) := by
  obtain ⟨init, cond, update, body⟩ := l
  cases init with
  | none => exact (goOn_noClause .init rfl fun _ => rfl).trans (ih w (Nat.le_refl _))
  | some b => exact goOn_clause rfl (fun _ => rfl) ih

theorem goOn_rounds (h : Mirrors host true [.block l.body] (walkAll host l.body)) (n : Nat)
    (w : Walk σ) (hn : w.left < n) : goOn host (.loop l .test :: below) w =
      resume host below (l.rounds host (walkAll host l.body) n w) := by
  induction n generalizing w with
  | zero => exact absurd hn (Nat.not_lt_zero _)
  | succ n ih =>
    rw [goOn_loop, Loop.rounds, resume_unit]
    refine unit_congr (R := fun position goesOn => position =
      (if goesOn then .block l.body :: .loop l .update :: below else below, w.store)) ?_ ?_
    · rw [Loop.dialogue_test]
      exact (Dialogue.Rel.refl _).map fun _ _ heq => .value (by rw [heq])
    · rintro _ goesOn rfl w' hstore hleft
      have hsame : { w' with store := w.store } = w' := by rw [← hstore]
      cases goesOn with
      | false => exact congrArg (goOn host below) hsame
      | true =>
        have hbody := h.goOn (.loop l .update :: below) (fun _ => rfl) w'
        have htame := h.tame w'
        refine (congrArg (goOn host (.block l.body :: .loop l .update :: below)) hsame).trans ?_
        refine hbody.trans ?_
        rw [if_pos rfl, before]
        generalize walkAll host l.body w' = r at htame
        obtain ⟨c, w''⟩ := r
        -- the body gives no unit back, so fewer are left for the rounds that follow
        have hlt : w''.left < n := Nat.lt_of_le_of_lt htame.1 (by omega)
        cases c with
        | normal | continued => exact goOn_update fun w' hw' => ih w' (Nat.lt_of_le_of_lt hw' hlt)
        | broke | cut | failed e | starved call => rfl

theorem tame_update (inLoop : Bool) : (l.updateWalk host).Tame inLoop := by
  rw [Loop.updateWalk]
  cases l.update with
  | none => exact .done
  | some a => exact .storing

theorem tame_rounds {inLoop : Bool} {body : Behaviour σ} (h : body.Tame true) (n : Nat) :
    (l.rounds host body n).Tame inLoop := by
  induction n with
  | zero => exact .stays fun hj => nomatch hj
  | succ n ih =>
    refine .unit fun goesOn => ?_
    cases goesOn with
    | false => exact .done
    | true => exact h.before ((tame_update _).andThen ih)

theorem tame_init {inLoop : Bool} : (l.initWalk host).Tame inLoop := by
  rw [Loop.initWalk]
  cases l.init with
  | none => exact .done
  | some b => exact .storing

theorem tame_walk {inLoop : Bool} {body : Behaviour σ} (h : body.Tame true) :
    (l.walk host body).Tame inLoop := fun w => tame_rounds h _ w

theorem Loop.rounds_of_lt {body : Behaviour σ} (h : body.Tame true) {n m : Nat} {w : Walk σ}
    (hn : w.left < n) (hm : w.left < m) : l.rounds host body n w = l.rounds host body m w := by
  induction n generalizing m w with
  | zero => exact absurd hn (Nat.not_lt_zero _)
  | succ n ih =>
    cases m with
    | zero => exact absurd hm (Nat.not_lt_zero _)
    | succ m =>
      refine unit_congr (.refl _) ?_
      rintro goesOn _ rfl w' - hleft
      cases goesOn with
      | false => rfl
      | true =>
        refine before_congr h fun v hv => andThen_congr (tame_update false) fun u hu => ?_
        have hu' : u.left < w.left := Nat.lt_of_le_of_lt (Nat.le_trans hu hv) hleft
        exact ih (by omega) (by omega)

/-- A loop tests; then it ends, or goes through its body and its update and begins again. -/
theorem Loop.walk_eq {body : Behaviour σ} (h : body.Tame true) :
    l.walk host body = unit host (.test l.cond) l.testDialogue fun goesOn =>
      if goesOn then body.before ((l.updateWalk host).andThen (l.walk host body)) else done := by
  funext w
  rw [Loop.walk, Loop.rounds]
  refine unit_congr (.refl _) ?_
  rintro goesOn _ rfl w' - hleft
  cases goesOn with
  | false => rfl
  | true =>
    refine before_congr h fun v hv => andThen_congr (tame_update false) fun u hu => ?_
    have hu' : u.left < w.left := Nat.lt_of_le_of_lt (Nat.le_trans hu hv) hleft
    exact Loop.rounds_of_lt h hu' (Nat.lt_succ_self _)

theorem goOn_walk (h : Mirrors host true [.block l.body] (walkAll host l.body)) (w : Walk σ) :
    goOn host (.loop l .test :: below) w = resume host below (l.walk host (walkAll host l.body) w) :=
  goOn_rounds h _ w (Nat.lt_succ_self _)

end Loops

section Trees

open Behaviour

variable {σ : Type} {host : Host σ} {inLoop : Bool}

/-- A statement that does what its tree does, and then gives way to the block it stands in. -/
structure Statement.Mirrors (host : Host σ) (inLoop : Bool) (s : Statement) : Prop where
  tame : (s.walk host).Tame inLoop
  goOn : ∀ rest below, (inLoop = true → (afterLoop? below).isSome = true) → ∀ w,
    goOn host (.block (s :: rest) :: below) w = resume host (.block rest :: below) (s.walk host w)

theorem goOn_statement (s : Statement) (rest : List Statement) (below : List Frame) (w : Walk σ) :
    goOn host (.block (s :: rest) :: below) w =
      unit host s.piece (fun store => s.dialogue store (.block rest :: below))
        (fun position w => goOn host position.1 { w with store := position.2 }) w :=
  goOn_unit rfl rfl w

theorem fromLoop?_isSome {frames : List Frame} (h : (afterLoop? frames).isSome = true) :
    (fromLoop? frames).isSome = true := by
  induction frames with
  | nil => exact h
  | cons frame frames ih =>
    cases frame with
    | block rest => exact ih h
    | loop l phase => rfl

theorem mirrors_storing {s : Statement} {d : Store → Dialogue Store}
    (hw : s.walk host = storing host s.piece d) (hd : ∀ store frames, s.dialogue store frames =
      (d store).andThen fun store => .value (frames, store)) : s.Mirrors host inLoop := by
  refine ⟨hw ▸ .storing, fun rest below _ w => ?_⟩
  rw [goOn_statement, hw, storing, resume_unit]
  refine unit_congr (R := fun position store => position = (.block rest :: below, store)) ?_ ?_
  · rw [hd]
    exact (Dialogue.Rel.refl _).map fun _ _ heq => .value (by rw [heq])
  · rintro _ store rfl w' - -
    rfl

/-- A statement whose only unit ends in one way, from which the tree goes on at the same frames. -/
theorem mirrors_ending {α : Type} {s : Statement} {d : Store → Dialogue α} {c : Completion}
    (hw : s.walk host = unit host s.piece d fun _ w => (c, w)) (hc : c.isJump = true → inLoop = true)
    (hd : ∀ rest below, (inLoop = true → (afterLoop? below).isSome = true) → ∃ frames,
      (∀ store, s.dialogue store (.block rest :: below) =
        (d store).andThen fun _ => .value (frames, store)) ∧
      ∀ w, resume host (.block rest :: below) (c, w) = goOn host frames w) : s.Mirrors host inLoop := by
  refine ⟨hw ▸ .unit fun _ => .stays hc, fun rest below hbelow w => ?_⟩
  obtain ⟨frames, hdialogue, hresume⟩ := hd rest below hbelow
  rw [goOn_statement, hw, resume_unit]
  refine unit_congr (R := fun position _ => position = (frames, w.store)) ?_ ?_
  · rw [hdialogue]
    exact (Dialogue.Rel.refl _).map fun _ _ _ => .value rfl
  · rintro _ _ rfl w' hstore -
    rw [hresume, ← hstore]

theorem mirrors_branch {branches : List (Expr × List Statement)} {otherwise : Option (List Statement)}
    (h : ∀ store, (choiceDialogue store otherwise branches).Rel
      (fun chosen x => Mirrors host inLoop (chosen.map .block).toList x)
      (choiceWalk host store (otherwiseWalk host otherwise) branches)) :
    (Statement.branch branches otherwise).Mirrors host inLoop := by
  refine ⟨?_, fun rest below hbelow w => ?_⟩
  · rw [Statement.walk]
    exact .unit_of_rel h fun _ _ hx => hx.tame
  · rw [goOn_statement, Statement.walk, resume_unit]
    refine unit_congr (R := fun position x => ∃ above, Mirrors host inLoop above x ∧
      position = (above ++ .block rest :: below, w.store)) ?_ ?_
    · refine (h w.store).map fun chosen x hx => ?_
      cases chosen with
      | none => exact .value ⟨_, hx, rfl⟩
      | some body => exact .value ⟨_, hx, rfl⟩
    · rintro _ x ⟨above, hx, rfl⟩ w' hstore -
      have hsame : { w' with store := w.store } = w' := by rw [← hstore]
      exact (congrArg (goOn host _) hsame).trans (hx.goOn (.block rest :: below) hbelow w')

mutual

theorem mirror (inLoop : Bool) : (s : Statement) → s.placed inLoop = true → s.Mirrors host inLoop
  | .bind b, _ => mirrors_storing (d := fun store => b.dialogue store) (by rw [Statement.walk]; rfl)
      fun _ _ => rfl
  | .eval e, _ => mirrors_ending (c := .normal) (d := fun store => e.dialogue store)
      (by rw [Statement.walk]; rfl) nofun fun rest below _ =>
        ⟨.block rest :: below, fun _ => rfl, fun _ => rfl⟩
  | .branch branches otherwise, h => by
    rw [Statement.placed, Bool.and_eq_true] at h
    exact mirrors_branch fun store =>
      mirrorChoice inLoop store (mirrorOtherwise inLoop otherwise h.2) branches h.1
  | .whileLoop cond body, h => by
    rw [Statement.placed] at h
    have hbody := mirrorAll true body h
    refine ⟨by rw [Statement.walk]; exact tame_walk hbody.tame, fun rest below _ w => ?_⟩
    rw [Statement.walk, ← goOn_walk (l := ⟨none, some cond, none, body⟩) hbody, goOn_statement,
      goOn_loop]
    rfl
  | .forLoop init cond update body, h => by
    rw [Statement.placed] at h
    have hbody := mirrorAll true body h
    refine ⟨by rw [Statement.walk]; exact tame_init.andThen (tame_walk hbody.tame),
      fun rest below _ w => ?_⟩
    rw [Statement.walk, ← goOn_init (l := ⟨init, cond, update, body⟩) fun w' _ => goOn_walk hbody w',
      goOn_statement, goOn_loop]
    rfl
  | .exitLoop, h => by
    rw [Statement.placed] at h
    refine mirrors_ending (by rw [Statement.walk]; rfl) (fun _ => h) fun rest below hbelow => ?_
    obtain ⟨frames, hframes⟩ := Option.isSome_iff_exists.1 (hbelow h)
    refine ⟨frames, fun store => ?_, fun w => ?_⟩
    · rw [Statement.dialogue, afterLoop?, hframes]
      rfl
    · rw [resume, afterLoop?, hframes]
      rfl
  | .nextRound, h => by
    rw [Statement.placed] at h
    refine mirrors_ending (by rw [Statement.walk]; rfl) (fun _ => h) fun rest below hbelow => ?_
    obtain ⟨frames, hframes⟩ := Option.isSome_iff_exists.1 (fromLoop?_isSome (hbelow h))
    refine ⟨frames, fun store => ?_, fun w => ?_⟩
    · rw [Statement.dialogue, fromLoop?, hframes]
      rfl
    · rw [resume, fromLoop?, hframes]
      rfl

theorem mirrorAll (inLoop : Bool) : (ss : List Statement) → placedAll inLoop ss = true →
    Mirrors host inLoop [.block ss] (walkAll host ss)
  | [], _ => ⟨.done, fun below _ w =>
      (goOn_settle (.block [] :: below) w).symm.trans (goOn_settle below w)⟩
  | s :: rest, h => by
    rw [placedAll, Bool.and_eq_true] at h
    have hs := mirror inLoop s h.1
    have hrest := mirrorAll inLoop rest h.2
    refine ⟨by rw [walkAll]; exact hs.tame.andThen hrest.tame, fun below hbelow w => ?_⟩
    refine (hs.goOn rest below hbelow w).trans ?_
    rw [walkAll, andThen]
    rcases s.walk host w with ⟨c, w'⟩
    cases c with
    | normal => exact hrest.goOn below hbelow w'
    | broke | continued | cut | failed e | starved call => rfl

theorem mirrorChoice (inLoop : Bool) (store : Store) {otherwise : Option (List Statement)}
    (ho : Mirrors host inLoop (otherwise.map .block).toList (otherwiseWalk host otherwise)) :
    (branches : List (Expr × List Statement)) → placedBranches inLoop branches = true →
      (choiceDialogue store otherwise branches).Rel
        (fun chosen x => Mirrors host inLoop (chosen.map .block).toList x)
        (choiceWalk host store (otherwiseWalk host otherwise) branches)
  | [], _ => .value ho
  | (cond, body) :: rest, h => by
    rw [placedBranches, Bool.and_eq_true] at h
    have hbody := mirrorAll inLoop body h.1
    have hrest := mirrorChoice inLoop store ho rest h.2
    refine .andThen (cond.dialogue store) fun v => ?_
    cases v.truthy with
    | true => exact .value hbody
    | false => exact hrest

theorem mirrorOtherwise (inLoop : Bool) : (otherwise : Option (List Statement)) →
    placedOtherwise inLoop otherwise = true →
      Mirrors host inLoop (otherwise.map .block).toList (otherwiseWalk host otherwise)
  | none, _ => ⟨.done, fun _ _ _ => rfl⟩
  | some body, h => mirrorAll inLoop body h

end

end Trees

end ScopeBlocks.Script
