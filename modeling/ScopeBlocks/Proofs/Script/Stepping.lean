import ScopeBlocks.Proofs.Script.Lexing
import ScopeBlocks.Proofs.Script.Placed
import ScopeBlocks.Proofs.Script.ReadingStatements
import ScopeBlocks.Proofs.Script.Suspension
import ScopeBlocks.Proofs.Script.WalkUnits

/-! Machines against the syntax tree. The units that a machine executes are those of the walk along the
tree with the values that are delivered to it, whenever these come. -/
namespace ScopeBlocks.Script

section Runs

variable {σ : Type} {host : Host σ} {program : Program} {s : σ}

/-- Where the reference run stands that has done as many units as a driver's machine. -/
structure Driver.Meets (host : Host σ) (d : Driver σ) (q : Reference σ) : Prop where
  store : q.store = d.machine.store
  frames : d.ended = none → settle q.frames = settle d.machine.frames
  ended : ∀ result, d.ended = some result → (q.step host).1 = .ofEnd result
  world : d.AtRest → d.verdict = .running ∨ d.verdict = .done → q.world = d.world

theorem Aligned.meets {d : Driver σ} (h : Aligned host program s d) (later : List Value) :
    ∃ q, (Reference.start program s (d.delivered ++ later)).run host d.machine.units = (.running, q) ∧
      d.Meets host q := by
  cases h with
  | @ready m w₀ w x before used status within fresh =>
    obtain ⟨frames, hframes, hrun⟩ := within.reached (used ++ later)
    rw [← List.append_assoc] at hrun
    refine ⟨_, hrun, rfl, fun _ => hframes, ?_, fun rest _ => (fresh (rest status)).2.symm⟩
    rintro _ ⟨⟩
  | @awaiting m w₀ w call p args next before used status within asks =>
    obtain ⟨frames, hframes, hrun⟩ := within.reached (used ++ later)
    rw [← List.append_assoc] at hrun
    refine ⟨_, hrun, rfl, fun _ => hframes, ?_, fun _ hv => ?_⟩
    · rintro _ ⟨⟩
    · simp only [Driver.verdict, status, reduceCtorEq, or_self] at hv
  | @ended m w delivered result n status reached =>
    obtain ⟨frames, hrun⟩ := reached later
    have hv : Verdict.ofEnd result ≠ .running := by cases result <;> exact Verdict.noConfusion
    obtain ⟨k, p, hk, hp⟩ := Reference.last_step hrun hv
    obtain ⟨hstore, hunits⟩ := Reference.step_of_ended hp hv
    have hk' : k = m.units := (hunits.trans ((Reference.units_of_run hk).trans (Nat.zero_add k))).symm
    refine ⟨p, hk' ▸ hk, hstore.symm, ?_, ?_, fun _ hd => ?_⟩
    · rintro ⟨⟩
    · rintro _ ⟨⟩
      rw [hp]
    · cases result with
      | ok =>
        rw [← (Reference.of_done hp).1]
      | error e => exact absurd hd (by simp [Driver.verdict, Verdict.ofEnd])

/-- How a walk ends that goes one unit beyond a machine, as the machine tells it. -/
inductive Completion.Tells : Completion → Except Error Step → Prop where
  | normal : Tells .normal (.ok .done)
  | cut : Tells .cut (.ok .continue)
  | failed (e : Error) : Tells (.failed e) (.error e)
  | starved (call : AsyncCall) : Tells (.starved call) (.ok (.suspend call))

theorem Machine.step_of_empty (host : Host σ) {m : Machine} (hm : m.status = .ready)
    (hf : settle m.frames = []) (s : σ) :
    m.step host s = (.ok .done, { m with frames := [], status := .finished }, s) := by
  rw [step, hm]
  dsimp only
  rw [hf]

theorem Machine.isFinished_advance (m : Machine) (position : Position) :
    (m.advance position).isFinished = (settle position.1).isEmpty := by
  simp only [isFinished, advance]
  cases (settle position.1).isEmpty <;> rfl

/-- A walk that stops at a place, and a machine that comes to it with its last step. -/
theorem Reference.tells {q : Reference σ} {frames : List Frame} (hq : settle q.frames = frames)
    (done : List Piece) : (q.walk host 0 done).1.Tells
      (.ok (if frames.isEmpty then .done else .continue)) := by
  by_cases h : frames = []
  · rw [walk_of_empty (hq.trans h), h]
    exact .normal
  · rw [walk_zero (hq ▸ h), if_neg (mt List.isEmpty_iff.1 h)]
    exact .cut

theorem Aligned.tells {d : Driver σ} (h : Aligned host program s d) (ready : d.machine.status = .ready)
    {q : Reference σ}
    (hq : (Reference.start program s d.delivered).run host d.machine.units = (.running, q))
    (done : List Piece) :
    (q.walk host 1 done).1.Tells (d.machine.step host.watched d.world).1 := by
  cases h with
  | @awaiting m w₀ w call p args next before used status within asks => cases ready.symm.trans status
  | @ended m w delivered result n status reached => cases ready.symm.trans status
  | @ready m w₀ w x before used status within fresh =>
    obtain ⟨frames, hframes, hrun⟩ := within.reached used
    cases hrun.symm.trans hq
    by_cases hf : settle m.frames = []
    · rw [Reference.walk_of_empty (hframes.trans hf), Machine.step_of_empty host.watched status hf]
      exact .normal
    · obtain ⟨frames', hstep⟩ := within.run hf []
      rw [List.append_nil, Reference.run_succ_of_running hq] at hstep
      rw [Reference.walk_succ (hframes ▸ hf), hstep, Machine.step_of_ready host.watched status hf]
      have hx := x.replayed host (m.recorded.reverse ++ []) w
      rw [← Dialogue.replay_ahead host.watched within.left] at hx
      change Replayed host x _ w (m.unit.replay host.watched ⟨.ofEntries m.recorded, w⟩) at hx
      generalize m.unit.replay host.watched ⟨.ofEntries m.recorded, w⟩ = result at hx
      cases hx with
      | @value position tape live =>
        rw [live]
        dsimp only
        rw [Machine.isFinished_advance]
        exact Reference.tells (settle_settle _) _
      | failed live =>
        rw [live]
        exact .failed _
      | suspended vs entries left asks live =>
        rw [live, Dialogue.live_ask_of_suspend_nil asks]
        exact .starved _

end Runs

section Machines

variable {σ : Type}

namespace Machine

variable (host : Host σ) (m : Machine) (s : σ)

def executed : List Piece :=
  match m.status, (m.step host s).1 with
  | .ready, .ok .continue | .ready, .ok .done => (pieceAt? (settle m.frames)).toList
  | _, _ => []

theorem executed_cases : m.executed host s = [] ∨ m.status = .ready ∧
    ∃ piece, pieceAt? (settle m.frames) = some piece ∧ m.executed host s = [piece] := by
  have h : m.executed host s = [] ∨
      m.status = .ready ∧ m.executed host s = (pieceAt? (settle m.frames)).toList := by
    rw [executed]
    split
    · exact .inr ⟨‹_›, rfl⟩
    · exact .inr ⟨‹_›, rfl⟩
    · exact .inl rfl
  rcases h with h | ⟨hm, h⟩
  · exact .inl h
  · cases hp : pieceAt? (settle m.frames) with
    | none => exact .inl (by rw [h, hp]; rfl)
    | some piece => exact .inr ⟨hm, piece, rfl, by rw [h, hp]; rfl⟩

theorem units_step : (m.step host s).2.1.units = m.units + (m.executed host s).length := by
  cases hm : m.status with
  | finished | awaiting call => simp only [executed, step, hm, List.length_nil, Nat.add_zero]
  | ready =>
    by_cases hf : settle m.frames = []
    · simp only [executed, hm, step_of_empty host hm hf, hf, pieceAt?, Option.toList_none, List.length_nil,
        Nat.add_zero]
    · obtain ⟨piece, hp⟩ := Reference.pieceAt?_settle hf
      simp only [executed, hm, step_of_ready host hm hf, hp]
      rcases m.unit.replay host ⟨.ofEntries m.recorded, s⟩ with ⟨(call | e) | position, tape⟩
      · rfl
      · rfl
      · dsimp only
        cases (m.advance position).isFinished <;> rfl

theorem frames_step (h : settle m.frames ≠ []) :
    (m.step host s).2.1.status = .finished ∨ settle (m.step host s).2.1.frames ≠ [] := by
  cases hm : m.status with
  | finished | awaiting call =>
    simp only [step, hm]
    exact .inr h
  | ready =>
    rw [step_of_ready host hm h]
    rcases m.unit.replay host ⟨.ofEntries m.recorded, s⟩ with ⟨(call | e) | position, tape⟩
    · exact .inr ((settle_settle m.frames).symm ▸ h)
    · exact .inl rfl
    · by_cases hp : settle position.1 = []
      · exact .inl (by simp only [advance, hp, List.isEmpty_nil, if_true])
      · exact .inr ((settle_settle position.1).symm ▸ hp)

end Machine

namespace Driver

variable {d : Driver σ} {r : Except Error Step × Machine × Watched σ}

theorem machine_hear (d : Driver σ) (r : Except Error Step × Machine × Watched σ) :
    (d.hear r).machine = r.2.1 := by
  rcases r with ⟨e | (_ | call | _ | _), machine, world⟩ <;> rfl

theorem delivered_hear (d : Driver σ) (r : Except Error Step × Machine × Watched σ) :
    (d.hear r).delivered = d.delivered := by
  rcases r with ⟨e | (_ | call | _ | _), machine, world⟩ <;> rfl

theorem ended_of_hear (h : (d.hear r).ended = none) : d.ended = none := by
  obtain ⟨machine, world, delivered, ended⟩ := d
  cases ended with
  | none => rfl
  | some result => rcases r with ⟨e | (_ | call | _ | _), machine, world⟩ <;> cases h

theorem deliver_cases (d : Driver σ) (v : Value) : d.deliver v = d ∨ ∃ machine : Machine,
    d.deliver v = { d with machine, delivered := d.delivered ++ [v] } ∧
      machine.units = d.machine.units ∧ machine.frames = d.machine.frames ∧
        machine.store = d.machine.store := by
  rw [deliver, Machine.resolve?]
  split
  next machine h =>
    split at h
    · cases h
      exact .inr ⟨_, rfl, rfl, rfl, rfl⟩
    · cases h
  next => exact .inl rfl

end Driver

theorem Aligned.ended_of_ready {host : Host σ} {program : Program} {s : σ} {d : Driver σ}
    (h : Aligned host program s d) (ready : d.machine.status = .ready) : d.ended = none := by
  cases h with
  | ready status within fresh => rfl
  | awaiting status within asks => rfl
  | ended n status reached => cases ready.symm.trans status

theorem Aligned.not_finished {host : Host σ} {program : Program} {s : σ} {d : Driver σ}
    (h : Aligned host program s d) (hend : d.ended = none) : d.machine.status ≠ .finished := by
  cases h with
  | ready status within fresh => simp only [status, ne_eq, reduceCtorEq, not_false_iff]
  | awaiting status within asks => simp only [status, ne_eq, reduceCtorEq, not_false_iff]
  | ended n status reached => cases hend

/-- What is done with a machine, one call at a time. -/
inductive Move where
  | step
  | resolve (v : Value)

/-- A driver, and the units that its machine has executed so far. -/
structure Logged (σ : Type) where
  driver : Driver σ
  pieces : List Piece

namespace Logged

def start (program : Program) (s : σ) : Logged σ := ⟨.start program s, []⟩

def move (host : Host σ) (l : Logged σ) : Move → Logged σ
  | .step =>
    { driver := l.driver.hear (l.driver.machine.step host.watched l.driver.world)
      pieces := l.pieces ++ l.driver.machine.executed host.watched l.driver.world }
  | .resolve v => { l with driver := l.driver.deliver v }

def after (host : Host σ) (l : Logged σ) (moves : List Move) : Logged σ := moves.foldl (move host) l

/-- How a log stands to the reference run. -/
structure Sound (host : Host σ) (program : Program) (s : σ) (l : Logged σ) : Prop where
  aligned : Aligned host program s l.driver
  pieces : ∀ later, (Reference.start program s (l.driver.delivered ++ later)).pieces host
    l.driver.machine.units = l.pieces
  counted : l.driver.machine.units = l.pieces.length
  left : program ≠ [] → l.driver.ended = none → settle l.driver.machine.frames ≠ []

variable {host : Host σ} {program : Program} {s : σ} {l : Logged σ}

theorem sound_start : (start program s).Sound host program s where
  aligned := aligned_start
  pieces _ := rfl
  counted := rfl
  left hp _ := by
    cases program with
    | nil => exact absurd rfl hp
    | cons first rest => exact List.cons_ne_nil _ _

theorem Sound.step (h : l.Sound host program s) : (l.move host .step).Sound host program s := by
  have haligned := h.aligned.step
  have hdelivered := l.driver.delivered_hear (l.driver.machine.step host.watched l.driver.world)
  have hmachine := l.driver.machine_hear (l.driver.machine.step host.watched l.driver.world)
  have hunits := l.driver.machine.units_step host.watched l.driver.world
  rw [← hmachine] at hunits
  refine ⟨haligned, fun later => ?_, ?_, fun hp hend => ?_⟩
  · change Reference.pieces host (l.driver.hear _).machine.units
      (.start program s ((l.driver.hear _).delivered ++ later)) = l.pieces ++ _
    rw [hdelivered, hunits]
    rcases l.driver.machine.executed_cases host.watched l.driver.world with hnone | ⟨ready, piece, hp, hone⟩
    · rw [hnone]
      exact (h.pieces later).trans (List.append_nil _).symm
    · -- the reference run does the same unit next
      obtain ⟨q, hq, hmeets⟩ := h.aligned.meets later
      obtain ⟨p, hp', -⟩ := haligned.meets later
      rw [hdelivered, hunits, hone] at hp'
      have hstep := (Reference.run_succ_of_running hq).symm.trans hp'
      have hpieces := Reference.pieces_succ hq hstep
      rw [hmeets.frames (h.aligned.ended_of_ready ready), hp, h.pieces later] at hpieces
      rw [hone]
      exact hpieces
  · change (l.driver.hear _).machine.units = (l.pieces ++ _).length
    rw [hunits, h.counted, List.length_append]
  · have hleft := h.left hp (Driver.ended_of_hear hend)
    have hframes := l.driver.machine.frames_step host.watched l.driver.world hleft
    rw [← hmachine] at hframes
    exact hframes.resolve_left (haligned.not_finished hend)

theorem Sound.resolve (h : l.Sound host program s) (v : Value) :
    (l.move host (.resolve v)).Sound host program s := by
  have haligned := h.aligned.deliver v
  rw [move]
  rcases l.driver.deliver_cases v with hd | ⟨machine, hd, hunits, hframes, -⟩
  · rw [hd]
    exact h
  · rw [hd] at haligned ⊢
    refine ⟨haligned, fun later => ?_, hunits.trans h.counted, fun hp hend => ?_⟩
    · change Reference.pieces host machine.units (.start program s (l.driver.delivered ++ [v] ++ later)) = _
      rw [hunits, List.append_assoc]
      exact h.pieces (v :: later)
    · change settle machine.frames ≠ []
      rw [hframes]
      exact h.left hp hend

theorem Sound.after (h : l.Sound host program s) (moves : List Move) :
    (l.after host moves).Sound host program s := by
  induction moves generalizing l with
  | nil => exact h
  | cons c moves ih =>
    cases c with
    | step => exact ih h.step
    | resolve v => exact ih (h.resolve v)

/-- The units of a machine are those of the walk along its program with the values delivered to it. -/
structure Follows (host : Host σ) (program : Program) (s : σ) (l : Logged σ) : Prop where
  /-- What was executed is what the walk begins with, in its order, whatever values are still to come. -/
  pieces : ∀ later, (program.walk host s (l.driver.delivered ++ later)
    l.driver.machine.units).2.pieces = l.pieces
  store : ∀ later, (program.walk host s (l.driver.delivered ++ later)
    l.driver.machine.units).2.store = l.driver.machine.store
  world : l.driver.AtRest → l.driver.verdict = .running ∨ l.driver.verdict = .done → ∀ later,
    (program.walk host s (l.driver.delivered ++ later) l.driver.machine.units).2.world = l.driver.world
  counted : l.driver.machine.units = l.pieces.length
  /-- The next answer tells what one more unit of the walk comes to. -/
  tells : l.driver.machine.status = .ready →
    (program.walk host s l.driver.delivered (l.driver.machine.units + 1)).1.Tells
      (l.driver.machine.step host.watched l.driver.world).1
  /-- As long as no end was heard, the walk goes on after the units that were executed. -/
  unfinished : l.driver.ended = none → program ≠ [] → ∀ later,
    (program.walk host s (l.driver.delivered ++ later) l.driver.machine.units).1 = .cut
  /-- Once done was heard, the walk has come to its end with them. -/
  done : l.driver.ended = some (.ok ()) → ∀ later more,
    (program.walk host s (l.driver.delivered ++ later) (l.driver.machine.units + more)).1 = .normal ∧
    (program.walk host s (l.driver.delivered ++ later)
      (l.driver.machine.units + more)).2.pieces = l.pieces
  failed : ∀ e, l.driver.ended = some (.error e) → ∀ later,
    (program.walk host s (l.driver.delivered ++ later) (l.driver.machine.units + 1)).1 = .failed e
  /-- The call that hears of the end has executed a unit, unless the program has none. -/
  last : l.driver.ended = none →
    (l.driver.machine.step host.watched l.driver.world).1 = .ok .done → program ≠ [] →
      l.driver.machine.executed host.watched l.driver.world ≠ []

/-- The walk along a program, from where its machine stands. -/
theorem Sound.walk (h : l.Sound host program s) (hp : placedAll false program = true)
    (later : List Value) : ∃ q : Reference σ,
      (Reference.start program s (l.driver.delivered ++ later)).run host l.driver.machine.units =
        (.running, q) ∧ l.driver.Meets host q ∧ ∀ more,
          program.walk host s (l.driver.delivered ++ later) (l.driver.machine.units + more) =
            q.walk host more l.pieces := by
  obtain ⟨q, hq, hmeets⟩ := h.aligned.meets later
  refine ⟨q, hq, hmeets, fun more => ?_⟩
  rw [Program.walk_eq hp, Reference.walk_of_run hq, h.pieces later]
  rfl

theorem Sound.follows (h : l.Sound host program s) (hp : placedAll false program = true) :
    l.Follows host program s where
  pieces later := by
    obtain ⟨q, -, -, hwalk⟩ := h.walk hp later
    rw [← Nat.add_zero l.driver.machine.units, hwalk, Reference.walk_stays]
  store later := by
    obtain ⟨q, -, hmeets, hwalk⟩ := h.walk hp later
    rw [← Nat.add_zero l.driver.machine.units, hwalk, Reference.walk_stays]
    exact hmeets.store
  world rest hv later := by
    obtain ⟨q, -, hmeets, hwalk⟩ := h.walk hp later
    rw [← Nat.add_zero l.driver.machine.units, hwalk, Reference.walk_stays]
    exact hmeets.world rest hv
  counted := h.counted
  tells ready := by
    obtain ⟨q, hq, -, hwalk⟩ := h.walk hp []
    rw [List.append_nil] at hq hwalk
    rw [hwalk]
    exact h.aligned.tells ready hq l.pieces
  unfinished hend hne later := by
    obtain ⟨q, -, hmeets, hwalk⟩ := h.walk hp later
    have hf : settle q.frames ≠ [] := hmeets.frames hend ▸ h.left hne hend
    rw [← Nat.add_zero l.driver.machine.units, hwalk, Reference.walk_zero hf]
  done hend later more := by
    obtain ⟨q, -, hmeets, hwalk⟩ := h.walk hp later
    have hf : settle q.frames = [] := Reference.empty_of_done (hmeets.ended _ hend)
    rw [hwalk, Reference.walk_of_empty hf]
    exact ⟨rfl, rfl⟩
  failed e hend later := by
    obtain ⟨q, -, hmeets, hwalk⟩ := h.walk hp later
    rw [hwalk]
    exact Reference.walk_of_failed (hmeets.ended _ hend) l.pieces
  last hend hdone hne := by
    have hleft := h.left hne hend
    obtain ⟨piece, hpiece⟩ := Reference.pieceAt?_settle hleft
    cases hm : l.driver.machine.status with
    | finished => exact absurd hm (h.aligned.not_finished hend)
    | awaiting call =>
      rw [Machine.step, hm] at hdone
      cases hdone
    | ready =>
      simp only [Machine.executed, hm, hdone, hpiece]
      exact List.cons_ne_nil _ _

end Logged

/-- However a program that was read is stepped, and whenever the values for its calls come, its machine
executes the units of the walk along its syntax tree. -/
theorem steps_follow_walk (host : Host σ) {text : String} {program : Program}
    (h : parse text = .ok program) (s : σ) (moves : List Move) :
    ((Logged.start program s).after host moves).Follows host program s :=
  (Logged.sound_start.after moves).follows (placed_of_parse h)

/-- A loop whose body leaves it or begins its next round. -/
def leftRounds : String := "while (capture()) \x7b if (capture()) \x7b break; \x7d continue; \x7d"

def leftRoundsProgram : Program :=
  [.whileLoop (.call .capture []) [.branch [(.call .capture [], [.exitLoop])] none, .nextRound]]

theorem leftRounds_parses : parse leftRounds = .ok leftRoundsProgram := by
  have hls : Token.lexemes? leftRounds.toList = some [.keyword .whileWord, .openParen, .name "capture",
      .openParen, .closeParen, .closeParen, .openBrace, .keyword .ifWord, .openParen, .name "capture",
      .openParen, .closeParen, .closeParen, .openBrace, .keyword .breakWord, .semicolon, .closeBrace,
      .keyword .continueWord, .semicolon, .closeBrace] := by
    simp [leftRounds, Token.lexemes?_word, Token.isNameStart, Token.isNameChar]
    rfl
  have hcall : Expr.Written 8 [.name "capture", .openParen, .closeParen] (.call .capture []) :=
    (Expr.Written.call .capture [] (by simp)).loosen_le (by decide)
  have hbranch := Statement.Written.branch
    ⟨_, .call .capture [], [([.keyword .breakWord, .semicolon], .exitLoop)]⟩ [] none
    (by simpa using hcall) (by simpa using .exitLoop) (by simp)
  have hloop := Statement.Written.whileLoop
    ⟨_, .call .capture [], [(_, _), (_, _)]⟩ hcall (by simpa using ⟨hbranch, .nextRound⟩)
  have hparse := parse_of_written hls (.single hloop)
  cases hp : parse leftRounds with
  | error e =>
    rw [hp] at hparse
    cases hparse
  | ok program =>
    rw [hp] at hparse
    cases hparse
    rfl

def silentHost : Host Unit := ⟨fun _ s => s, fun _ _ s => (none, s), fun _ s => s⟩

/-- Two rounds: the first one ends with a jump to the second, which is left in the middle. Every call is
waited for with one step too many. -/
def leftRoundsLog : Logged Unit :=
  let answered (b : Bool) : List Move := [.step, .step, .resolve (.bool b), .step]
  (Logged.start leftRoundsProgram ()).after silentHost
    (answered true ++ answered false ++ [.step] ++ answered true ++ answered true ++ [.step])

theorem leftRounds_follows : parse leftRounds = .ok leftRoundsProgram ∧
    leftRoundsLog.driver.machine.status = .finished ∧ leftRoundsLog.pieces.length = 6 ∧
    leftRoundsLog.Follows silentHost leftRoundsProgram () :=
  ⟨leftRounds_parses, by decide +kernel, by decide +kernel,
    steps_follow_walk silentHost leftRounds_parses () _⟩

end Machines

end ScopeBlocks.Script
