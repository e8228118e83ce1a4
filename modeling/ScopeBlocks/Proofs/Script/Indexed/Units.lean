import Mathlib.Data.List.Forall2
import ScopeBlocks.Proofs.Script.Frames
import ScopeBlocks.Proofs.Script.Indexed.Following

/-! Units of the machine that runs from tables. Its frames stand for those of the machine that runs the
tree, and the task that it locates next is the other machine's next unit. -/
namespace ScopeBlocks.Script

/-- The phase that is gone through next: clauses that are missing take no unit. -/
def Loop.nextPhase (l : Loop) : LoopPhase → LoopPhase
  | .init => if l.init.isSome then .init else .test
  | .update => if l.update.isSome then .update else .test
  | .test => .test

/-- The frames when the next unit is begun: a loop that comes next is entered. -/
def enter : List Frame → List Frame
  | .block (.whileLoop cond body :: rest) :: frames =>
    .loop ⟨none, some cond, none, body⟩ .test :: .block rest :: frames
  | .block (.forLoop init cond update body :: rest) :: frames =>
    let l : Loop := ⟨init, cond, update, body⟩
    .loop l (l.nextPhase .init) :: .block rest :: frames
  | .loop l phase :: frames => .loop l (l.nextPhase phase) :: frames
  | frames => frames

theorem Loop.nextPhase_nextPhase (l : Loop) (phase : LoopPhase) :
    l.nextPhase (l.nextPhase phase) = l.nextPhase phase := by
  cases phase with
  | init => cases h : l.init <;> simp [nextPhase, h]
  | update => cases h : l.update <;> simp [nextPhase, h]
  | test => rfl

theorem enter_enter (frames : List Frame) : enter (enter frames) = enter frames := by
  cases frames with
  | nil => rfl
  | cons f below =>
    cases f with
    | loop l phase => simp [enter, l.nextPhase_nextPhase]
    | block rest =>
      cases rest with
      | nil => rfl
      | cons s rest =>
        cases s with
        | forLoop => simp only [enter, Loop.nextPhase_nextPhase]
        | _ => rfl

theorem settle_ne (frames below : List Frame) : settle frames ≠ .block [] :: below := by
  induction frames with
  | nil => nofun
  | cons f frames ih =>
    cases f with
    | loop => nofun
    | block rest =>
      cases rest with
      | nil => exact ih
      | cons => nofun

theorem settle_enter_settle (frames : List Frame) :
    settle (enter (settle frames)) = enter (settle frames) := by
  induction frames with
  | nil => rfl
  | cons f below ih =>
    cases f with
    | loop l phase => rfl
    | block rest => cases rest with
      | nil => exact ih
      | cons s rest => cases s <;> rfl

section

variable {σ : Type} (host : Host σ) (store : Store)

theorem Loop.run_nextPhase (l : Loop) (phase : LoopPhase) (frames : List Frame) :
    l.run host store (l.nextPhase phase) frames = l.run host store phase frames := by
  obtain ⟨init, cond, update, body⟩ := l
  cases phase with
  | init => cases init <;> rfl
  | update => cases init <;> cases update <;> rfl
  | test => rfl

theorem runUnit_enter (frames : List Frame) :
    runUnit host store (enter frames) = runUnit host store frames := by
  cases frames with
  | nil => rfl
  | cons f below =>
    cases f with
    | loop l phase => exact l.run_nextPhase host store phase below
    | block rest =>
      cases rest with
      | nil => rfl
      | cons s rest =>
        cases s with
        | forLoop init cond update body =>
          exact Loop.run_nextPhase host store ⟨init, cond, update, body⟩ .init _
        | _ => rfl

end

/-! Frames whose jumps are placed. -/

def inLoop (frames : List Frame) : Bool := (afterLoop? frames).isSome

/-- Whether every jump that is still to be run has a loop around it. -/
def PlacedFrames : List Frame → Prop
  | [] => True
  | .block rest :: below => placedAll (inLoop below) rest = true ∧ PlacedFrames below
  | .loop l _ :: below => placedAll true l.body = true ∧ PlacedFrames below

namespace PlacedFrames

variable {frames : List Frame}

theorem settle (h : PlacedFrames frames) : PlacedFrames (settle frames) := by
  induction frames with
  | nil => exact h
  | cons f below ih =>
    cases f with
    | loop => exact h
    | block rest =>
      cases rest with
      | nil => exact ih h.2
      | cons => exact h

theorem enter (h : PlacedFrames frames) : PlacedFrames (enter frames) := by
  cases frames with
  | nil => exact h
  | cons f below =>
    cases f with
    | loop => exact h
    | block rest =>
      cases rest with
      | nil => exact h
      | cons s rest =>
        obtain ⟨hplaced, hbelow⟩ := h
        rw [placedAll, Bool.and_eq_true] at hplaced
        cases s with
        | whileLoop | forLoop => exact ⟨hplaced.1, hplaced.2, hbelow⟩
        | _ => exact ⟨by rw [placedAll, Bool.and_eq_true]; exact hplaced, hbelow⟩

theorem afterLoop (h : PlacedFrames frames) {below : List Frame}
    (hb : afterLoop? frames = some below) : PlacedFrames below := by
  induction frames with
  | nil => cases hb
  | cons f frames ih =>
    cases f with
    | block => exact ih h.2 hb
    | loop =>
      cases hb
      exact h.2

theorem fromLoop (h : PlacedFrames frames) {below : List Frame}
    (hb : fromLoop? frames = some below) : PlacedFrames below := by
  induction frames with
  | nil => cases hb
  | cons f frames ih =>
    cases f with
    | block => exact ih h.2 hb
    | loop =>
      cases hb
      exact h

end PlacedFrames

namespace Indexed

/-- Whether a frame of indices stands for one of the tree. -/
inductive FrameAt (t : Tables) : Frame → Script.Frame → Prop
  | block {k n : Nat} {ids : List Nat} {rest : List Script.Statement}
      (row : t.blocks[k]? = some ids) (left : StatementsAt t (k + 1) rest (ids.drop n)) :
      FrameAt t (.block k n) (.block rest)
  | whileLoop {i j k : Nat} {cond : Script.Expr} {body : List Script.Statement} {phase : LoopPhase}
      (row : t.statements[i]? = some (.whileLoop j k)) (test : ExprAt t cond j)
      (own : BlockAt t body k) (passed : phase ≠ .init) :
      FrameAt t (.loop i .test) (.loop ⟨none, some cond, none, body⟩ phase)
  | forLoop {i k : Nat} {n c u : Option Nat} {l : Loop} {phase : LoopPhase}
      (row : t.statements[i]? = some (.forLoop n c u k)) (init : PartAt (BindingAt t) l.init n)
      (test : PartAt (ExprAt t) l.cond c) (update : PartAt (AssignmentAt t) l.update u)
      (own : BlockAt t l.body k) : FrameAt t (.loop i phase) (.loop l phase)

abbrev FramesAt (t : Tables) : List Frame → List Script.Frame → Prop := List.Forall₂ (FrameAt t)

variable {t : Tables} {fs : List Frame} {gs : List Script.Frame}

theorem FramesAt.settle (h : FramesAt t fs gs) :
    ∃ fs', Indexed.settle t fs = .ok fs' ∧ FramesAt t fs' (Script.settle gs) := by
  induction h with
  | nil => exact ⟨[], rfl, .nil⟩
  | @cons f g fs gs hf hfs ih =>
    cases hf with
    | @block k n ids rest hids hrest =>
      unfold Indexed.settle
      rw [hids]
      dsimp only
      cases rest with
      | nil =>
        have hused : ¬n < ids.length := by
          have hnil : ids.drop n = [] := hrest
          rw [List.drop_eq_nil_iff] at hnil
          omega
        rw [if_neg hused]
        exact ih
      | cons s rest =>
        have hleft : n < ids.length := by
          obtain ⟨i, js, hdrop, -⟩ := hrest
          refine Nat.lt_of_not_le fun hle => ?_
          rw [List.drop_eq_nil_of_le hle] at hdrop
          cases hdrop
        rw [if_pos hleft]
        exact ⟨_, rfl, .cons (.block hids hrest) hfs⟩
    | whileLoop row test own passed => exact ⟨_, rfl, .cons (.whileLoop row test own passed) hfs⟩
    | forLoop row init test update own => exact ⟨_, rfl, .cons (.forLoop row init test update own) hfs⟩

theorem FramesAt.afterLoop (h : FramesAt t fs gs) {below : List Script.Frame}
    (hb : Script.afterLoop? gs = some below) : ∃ fs', afterLoop? fs = some fs' ∧ FramesAt t fs' below := by
  induction h with
  | nil => cases hb
  | cons hf hfs ih =>
    cases hf with
    | block => exact ih hb
    | whileLoop | forLoop =>
      cases hb
      exact ⟨_, rfl, hfs⟩

theorem FramesAt.fromLoop (h : FramesAt t fs gs) {below : List Script.Frame}
    (hb : Script.fromLoop? gs = some below) : ∃ fs', fromLoop? fs = some fs' ∧ FramesAt t fs' below := by
  induction h with
  | nil => cases hb
  | cons hf hfs ih =>
    cases hf with
    | block => exact ih hb
    | whileLoop row test own passed =>
      cases hb
      exact ⟨_, rfl, .cons (.whileLoop row test own passed) hfs⟩
    | forLoop row init test update own =>
      cases hb
      exact ⟨_, rfl, .cons (.forLoop row init test update own) hfs⟩

/-- Whether a position of the one machine stands for one of the other. -/
def PositionAt (t : Tables) (p : List Frame × Store) (q : Position) : Prop :=
  FramesAt t p.1 q.1 ∧ PlacedFrames q.1 ∧ p.2 = q.2

/-- The next task, which is the next unit of the tree's machine. -/
def Located {σ : Type} (host : Host σ) (t : Tables) (store : Store) (fs : List Frame)
    (gs : List Script.Frame) (x : Evaluation σ Position) : Prop :=
  ∃ task fs', locate t fs = .ok (task, fs') ∧ FramesAt t fs' gs ∧
    Follows (PositionAt t) (task.run host t store fs') x

theorem Located.step {σ : Type} {host : Host σ} {store : Store} {fs fs' : List Frame}
    {gs : List Script.Frame} {x : Evaluation σ Position} (h : Located host t store fs' gs x)
    (hl : locate t fs = locate t fs') : Located host t store fs gs x := by
  obtain ⟨task, fs'', hlocate, hrest⟩ := h
  exact ⟨task, fs'', hl.trans hlocate, hrest⟩

variable {σ : Type} (host : Host σ) (store : Store) (hsound : t.Sound)

include hsound

theorem testRun_follows {l : Loop} {i k : Nat} {c : Option Nat} {now phase : LoopPhase}
    {below : List Frame} {gs : List Script.Frame} (htest : PartAt (ExprAt t) l.cond c)
    (hbody : BlockAt t l.body k) (hagain : FrameAt t (.loop i phase) (.loop l .update))
    (hbelow : FramesAt t below gs) (hl : placedAll true l.body = true) (hgs : PlacedFrames gs) :
    Follows (PositionAt t) ((Task.test c k phase).run host t store (.loop i now :: below))
      (l.run host store .test gs) := by
  obtain ⟨ids, hids, hss⟩ := hbody
  refine (test_follows host hsound htest).bind_eq fun goesOn => ?_
  cases goesOn with
  | true => exact .pure ⟨.cons (.block hids hss) (.cons hagain hbelow), ⟨hl, hl, hgs⟩, rfl⟩
  | false => exact .pure ⟨hbelow, hgs, rfl⟩

/-- The next task of a loop, in a frame that stands for the loop's. -/
theorem located_loop {i : Nat} {phase : LoopPhase} {l : Loop} {phase' : LoopPhase}
    {below : List Frame} {gs : List Script.Frame} (h : FrameAt t (.loop i phase) (.loop l phase'))
    (hbelow : FramesAt t below gs) (hl : placedAll true l.body = true) (hgs : PlacedFrames gs) :
    Located host t store (.loop i phase :: below) (.loop l (l.nextPhase phase') :: gs)
      (l.run host store phase' gs) := by
  cases h with
  | @whileLoop _ j k cond body _ row test own passed =>
    have htest : Located host t store (.loop i .test :: below)
        (.loop ⟨none, some cond, none, body⟩ .test :: gs)
        (Loop.run host store ⟨none, some cond, none, body⟩ .test gs) := by
      refine ⟨.test (some j) k .test, .loop i .test :: below, ?_, ?_, ?_⟩
      · rw [locate, locateLoop, row]
      · exact .cons (.whileLoop row test own (by decide)) hbelow
      · exact testRun_follows host store hsound (l := ⟨none, some cond, none, body⟩) ⟨j, rfl, test⟩ own
          (.whileLoop row test own (by decide)) hbelow hl hgs
    cases phase' with
    | init => exact absurd rfl passed
    | test => exact htest
    | update => exact htest
  | @forLoop _ k n c u _ _ row init test update own =>
    have hframe : ∀ phase, FrameAt t (.loop i phase) (.loop l phase) := fun phase =>
      .forLoop row init test update own
    have htest : Located host t store (.loop i .test :: below) (.loop l .test :: gs)
        (l.run host store .test gs) := by
      refine ⟨.test c k .update, .loop i .test :: below, ?_, .cons (hframe .test) hbelow, ?_⟩
      · rw [locate, locateLoop, row]
      · exact testRun_follows host store hsound test own (hframe .update) hbelow hl hgs
    obtain ⟨linit, lcond, lupdate, lbody⟩ := l
    cases phase with
    | test => exact htest
    | init =>
      cases linit with
      | none =>
        obtain rfl : n = none := init
        exact htest.step (by simp only [locate, locateLoop, row])
      | some b =>
        obtain ⟨m, rfl, hb⟩ := init
        refine ⟨.clause m, .loop i .init :: below, by rw [locate, locateLoop, row],
          .cons (hframe .init) hbelow, ?_⟩
        refine (binding_follows host hsound hb).bind_eq fun _ => .pure ?_
        exact ⟨.cons (hframe .test) hbelow, ⟨hl, hgs⟩, rfl⟩
    | update =>
      cases lupdate with
      | none =>
        obtain rfl : u = none := update
        exact (show Located host t store _ _ _ from htest).step (by simp only [locate, locateLoop, row])
      | some a =>
        obtain ⟨m, rfl, ha⟩ := update
        refine ⟨.clause m, .loop i .update :: below, by rw [locate, locateLoop, row],
          .cons (hframe .update) hbelow, ?_⟩
        refine (assignment_follows host hsound ha).bind_eq fun _ => .pure ?_
        exact ⟨.cons (hframe .test) hbelow, ⟨hl, hgs⟩, rfl⟩

/-- A statement that comes next in a block, at some index, with the frames before it and past it. -/
structure Next (t : Tables) (s : Script.Statement) (rest : List Script.Statement) (i k n : Nat)
    (below : List Frame) (gs : List Script.Frame) : Prop where
  index : ∃ ids, t.blocks[k]? = some ids ∧ ids[n]? = some i
  here : FramesAt t (.block k n :: below) (.block (s :: rest) :: gs)
  past : FramesAt t (.block k (n + 1) :: below) (.block rest :: gs)
  placed : s.placed (inLoop gs) = true
  placedPast : PlacedFrames (.block rest :: gs)

namespace Next

omit hsound

theorem ofFrame {s : Script.Statement} {rest : List Script.Statement} {k n : Nat} {below : List Frame}
    {gs : List Script.Frame} (hframe : FrameAt t (.block k n) (.block (s :: rest)))
    (hbelow : FramesAt t below gs) (hplaced : PlacedFrames (.block (s :: rest) :: gs)) :
    ∃ i, Next t s rest i k n below gs ∧ StatementAt t (k + 1) s i := by
  obtain @⟨_, _, ids, _, hids, i, js, hdrop, hs, hjs⟩ := hframe
  have hi : ids[n]? = some i := by rw [← List.head?_drop, hdrop]; rfl
  have hnext : ids.drop (n + 1) = js := by rw [← List.tail_drop, hdrop]; rfl
  obtain ⟨hall, hgs⟩ := hplaced
  rw [placedAll, Bool.and_eq_true] at hall
  refine ⟨i, ⟨⟨ids, hids, hi⟩, ?_, ?_, hall.1, hall.2, hgs⟩, hs⟩
  · exact .cons (.block hids ⟨i, js, hdrop, hs, hjs⟩) hbelow
  · exact .cons (.block hids (by rwa [hnext])) hbelow

variable {rest : List Script.Statement} {i k n : Nat} {below : List Frame} {gs : List Script.Frame}

theorem locate {s : Script.Statement} (h : Next t s rest i k n below gs) {row : Statement}
    (hrow : t.statements[i]? = some row) (hloop : row.loopBody? = none) :
    locate t (.block k n :: below) = .ok (.statement i, .block k n :: below) := by
  obtain ⟨ids, hids, hi⟩ := h.index
  rw [Indexed.locate, hids]
  dsimp only
  rw [hi]
  dsimp only
  rw [hrow]
  cases row <;> first | rfl | cases hloop

include hsound

theorem bind {b : Script.Binding} (h : Next t (.bind b) rest i k n below gs) (hb : BindingAt t b i) :
    Located host t store (.block k n :: below) (.block (.bind b :: rest) :: gs)
      ((Script.Statement.bind b).run host store (.block rest :: gs)) := by
  obtain ⟨row, hrow, hsimple, hloop⟩ : ∃ row, t.statements[i]? = some row ∧
      (Task.statement i).run host t store (.block k n :: below) =
        (do return (.block k (n + 1) :: below, ← simple host t store i)) ∧ row.loopBody? = none := by
    cases b with
    | declare | assign =>
      obtain ⟨j, hrow, -⟩ := hb
      exact ⟨_, hrow, by rw [Task.run, Calc.row_bind hrow]; rfl, rfl⟩
  refine ⟨_, _, h.locate hrow hloop, h.here, ?_⟩
  rw [hsimple]
  exact (binding_follows host hsound hb).bind_eq fun _ => .pure ⟨h.past, h.placedPast, rfl⟩

theorem eval {e : Script.Expr} (h : Next t (.eval e) rest i k n below gs) {j : Nat}
    (hrow : t.statements[i]? = some (.eval j)) (he : ExprAt t e j) :
    Located host t store (.block k n :: below) (.block (.eval e :: rest) :: gs)
      ((Script.Statement.eval e).run host store (.block rest :: gs)) := by
  refine ⟨_, _, h.locate hrow rfl, h.here, ?_⟩
  have hsimple : simple host t store i = (do let _ ← Indexed.eval host t store j; return store) := by
    rw [simple, Calc.row_bind hrow]
  rw [Task.run, Calc.row_bind hrow]
  dsimp only
  rw [hsimple, bind_assoc]
  exact (eval_follows host hsound he).bind_eq fun _ => .pure ⟨h.past, h.placedPast, rfl⟩

theorem branch {branches : List (Script.Expr × List Script.Statement)}
    {otherwise : Option (List Script.Statement)}
    (h : Next t (.branch branches otherwise) rest i k n below gs) {low : Nat} {bs : List (Nat × Nat)}
    {o : Option Nat} (hrow : t.statements[i]? = some (.branch bs o)) (hbs : BranchesAt t low branches bs)
    (ho : LastAt t low otherwise o) :
    Located host t store (.block k n :: below) (.block (.branch branches otherwise :: rest) :: gs)
      ((Script.Statement.branch branches otherwise).run host store (.block rest :: gs)) := by
  refine ⟨_, _, h.locate hrow rfl, h.here, ?_⟩
  rw [Task.run, Calc.row_bind hrow]
  obtain ⟨hpb, hpo⟩ := Bool.and_eq_true _ _ ▸ h.placed
  refine (choose_follows host hsound ho hpo hbs hpb).bind fun block body hblock => ?_
  cases body with
  | none =>
    obtain rfl : block = none := hblock
    exact .pure ⟨h.past, h.placedPast, rfl⟩
  | some body =>
    obtain ⟨l, rfl, ⟨ls, hls, hbody⟩, hpbody⟩ := hblock
    exact .pure ⟨.cons (.block hls hbody) h.past, ⟨hpbody, h.placedPast⟩, rfl⟩

theorem enterLoop {s : Script.Statement} (h : Next t s rest i k n below gs) {phase phase' : LoopPhase}
    {l : Loop} (hloop : FrameAt t (.loop i phase) (.loop l phase')) (hl : placedAll true l.body = true)
    (hlocate : ∀ ids, t.blocks[k]? = some ids → ids[n]? = some i →
      Indexed.locate t (.block k n :: below) =
        Indexed.locate t (.loop i phase :: .block k (n + 1) :: below)) :
    Located host t store (.block k n :: below) (.loop l (l.nextPhase phase') :: .block rest :: gs)
      (l.run host store phase' (.block rest :: gs)) := by
  obtain ⟨ids, hids, hi⟩ := h.index
  exact (located_loop host store hsound hloop h.past hl h.placedPast).step (hlocate ids hids hi)

theorem whileLoop {cond : Script.Expr} {body : List Script.Statement}
    (h : Next t (.whileLoop cond body) rest i k n below gs) {j l : Nat}
    (hrow : t.statements[i]? = some (.whileLoop j l)) (hcond : ExprAt t cond j) (hbody : BlockAt t body l) :
    Located host t store (.block k n :: below)
      (enter (.block (.whileLoop cond body :: rest) :: gs))
      ((Script.Statement.whileLoop cond body).run host store (.block rest :: gs)) := by
  have hloop : FrameAt t (.loop i .test) (.loop ⟨none, some cond, none, body⟩ .test) :=
    .whileLoop hrow hcond hbody (by decide)
  refine h.enterLoop host store hsound hloop h.placed fun ids hids hi => ?_
  simp only [Indexed.locate, hids, hi, hrow]

theorem forLoop {l : Loop} (h : Next t (.forLoop l.init l.cond l.update l.body) rest i k n below gs)
    {m c u : Option Nat} {b : Nat} (hrow : t.statements[i]? = some (.forLoop m c u b))
    (hinit : PartAt (BindingAt t) l.init m) (hcond : PartAt (ExprAt t) l.cond c)
    (hupdate : PartAt (AssignmentAt t) l.update u) (hbody : BlockAt t l.body b) :
    Located host t store (.block k n :: below)
      (enter (.block (.forLoop l.init l.cond l.update l.body :: rest) :: gs))
      ((Script.Statement.forLoop l.init l.cond l.update l.body).run host store (.block rest :: gs)) := by
  have hloop : FrameAt t (.loop i .init) (.loop l .init) := .forLoop hrow hinit hcond hupdate hbody
  refine h.enterLoop host store hsound hloop h.placed fun ids hids hi => ?_
  simp only [Indexed.locate, hids, hi, hrow]

omit hsound

theorem exitLoop (h : Next t .exitLoop rest i k n below gs) (hrow : t.statements[i]? = some .exitLoop) :
    Located host t store (.block k n :: below) (.block (.exitLoop :: rest) :: gs)
      (Script.Statement.exitLoop.run host store (.block rest :: gs)) := by
  refine ⟨_, _, h.locate hrow rfl, h.here, ?_⟩
  obtain ⟨gs', hgs'⟩ := Option.isSome_iff_exists.1 h.placed
  obtain ⟨fs', hfs', hat⟩ := h.past.afterLoop hgs'
  have hgone : Script.afterLoop? (.block rest :: gs) = some gs' := hgs'
  rw [Task.run, Calc.row_bind hrow]
  simp only [advance, hfs', Script.Statement.run, hgone]
  exact .pure ⟨hat, h.placedPast.afterLoop hgs', rfl⟩

theorem nextRound (h : Next t .nextRound rest i k n below gs)
    (hrow : t.statements[i]? = some .nextRound) :
    Located host t store (.block k n :: below) (.block (.nextRound :: rest) :: gs)
      (Script.Statement.nextRound.run host store (.block rest :: gs)) := by
  refine ⟨_, _, h.locate hrow rfl, h.here, ?_⟩
  obtain ⟨gs', hgs'⟩ := Option.isSome_iff_exists.1 (fromLoop?_isSome h.placed)
  obtain ⟨fs', hfs', hat⟩ := h.past.fromLoop hgs'
  have hgone : Script.fromLoop? (.block rest :: gs) = some gs' := hgs'
  rw [Task.run, Calc.row_bind hrow]
  simp only [advance, hfs', Script.Statement.run, hgone]
  exact .pure ⟨hat, h.placedPast.fromLoop hgs', rfl⟩

end Next

theorem located_statement {s : Script.Statement} {rest : List Script.Statement} {k n : Nat}
    {below : List Frame} {gs : List Script.Frame}
    (hframe : FrameAt t (.block k n) (.block (s :: rest))) (hbelow : FramesAt t below gs)
    (hplaced : PlacedFrames (.block (s :: rest) :: gs)) :
    Located host t store (.block k n :: below) (enter (.block (s :: rest) :: gs))
      (s.run host store (.block rest :: gs)) := by
  obtain ⟨i, next, hs⟩ := Next.ofFrame hframe hbelow hplaced
  cases s with
  | bind b => exact next.bind host store hsound hs
  | eval e =>
    obtain ⟨j, hrow, he⟩ := hs
    exact next.eval host store hsound hrow he
  | branch branches otherwise =>
    obtain ⟨bs, o, hrow, hbs, ho⟩ := hs
    exact next.branch host store hsound hrow hbs ho
  | whileLoop cond body =>
    obtain ⟨j, l, ls, hrow, hcond, -, hls, hbody⟩ := hs
    exact next.whileLoop host store hsound hrow hcond ⟨ls, hls, hbody⟩
  | forLoop init cond update body =>
    obtain ⟨m, c, u, l, ls, hrow, hinit, hcond, hupdate, -, hls, hbody⟩ := hs
    exact Next.forLoop host store hsound (l := ⟨init, cond, update, body⟩) next hrow hinit hcond hupdate
      ⟨ls, hls, hbody⟩
  | exitLoop => exact next.exitLoop host store hs
  | nextRound => exact next.nextRound host store hs

/-- Where something is left to be run, the next task is the next unit. -/
theorem located (h : FramesAt t fs gs) (hs : Script.settle gs = gs) (hn : gs ≠ [])
    (hp : PlacedFrames gs) :
    Located host t store fs (enter gs) (runUnit host store gs) := by
  cases h with
  | nil => exact absurd rfl hn
  | @cons f g below gs hf hbelow =>
    cases g with
    | loop l phase =>
      cases f with
      | block => cases hf
      | loop i phase' => exact located_loop host store hsound hf hbelow hp.1 hp.2
    | block rest =>
      cases f with
      | loop => cases hf
      | block k n =>
        cases rest with
        | nil => exact absurd hs (settle_ne (.block [] :: gs) gs)
        | cons s rest => exact located_statement host store hsound hf hbelow hp

end Indexed

end ScopeBlocks.Script
