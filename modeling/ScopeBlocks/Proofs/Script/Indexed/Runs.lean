import ScopeBlocks.Proofs.Script.Indexed.Accepted
import ScopeBlocks.Proofs.Script.Indexed.Units
import ScopeBlocks.Proofs.Script.Rendering
import ScopeBlocks.Proofs.Script.Replay

/-! Runs from tables. The machine on the tables of a text that is accepted goes step by step with the
machine that runs the tree: every step comes to an end and to the same result, so that none comes upon an
index out of range or a row of another kind than it needs. -/
namespace ScopeBlocks.Script

/-- The machines that any driver may bring about, with any host at any step. -/
inductive Machine.Reached (program : Program) : Machine → Prop
  | start : Reached program (.ofProgram program)
  | step {σ : Type} {m : Machine} (host : Host σ) (s : σ) (reached : Reached program m) :
      Reached program (m.step host s).2.1
  | resolve {v : Value} {m m' : Machine} (reached : Reached program m) (h : m.resolve? v = some m') :
      Reached program m'

theorem enter_eq_nil {frames : List Frame} (h : enter frames = []) : frames = [] := by
  cases frames with
  | nil => rfl
  | cons f below =>
    cases f with
    | loop => cases h
    | block rest =>
      cases rest with
      | nil => cases h
      | cons s rest => cases s <;> cases h

namespace Indexed

def awaited? : Status → Option AsyncCall
  | .awaiting call => some call
  | _ => none

/-- Whether the one machine stands for the other. It may be further on the way to its next unit. -/
structure Shadows (t : Tables) (m : Machine) (tree : Script.Machine) : Prop where
  store : m.store = tree.store
  recorded : m.recorded = tree.recorded
  units : m.units = tree.units
  awaiting : m.awaiting = awaited? tree.status
  finished : m.finished = (tree.status == .finished)
  frames : tree.status ≠ .finished → ∃ gs, FramesAt t m.frames gs ∧ PlacedFrames gs ∧
    enter (Script.settle gs) = enter (Script.settle tree.frames)

variable {t : Tables} {m : Machine} {tree : Script.Machine}

theorem shadows_start {program : Program} (h : BlockAt t program 0)
    (hp : placedAll false program = true) : Shadows t .start (.ofProgram program) where
  store := rfl
  recorded := rfl
  units := rfl
  awaiting := rfl
  finished := rfl
  frames _ := by
    obtain ⟨ids, hids, hss⟩ := h
    exact ⟨[.block program], .cons (.block hids (by simpa using hss)) .nil, ⟨hp, trivial⟩, rfl⟩

theorem isEmpty_framesAt {fs : List Frame} {gs : List Script.Frame} (h : FramesAt t fs gs) :
    fs.isEmpty = gs.isEmpty := by
  cases h <;> rfl

/-- Whether the one machine's step is the other's, which fails as a script may. -/
def SameStep {σ : Type} (t : Tables) (x : Option (Except Failure Step × Machine × σ))
    (y : Except Error Step × Script.Machine × σ) : Prop :=
  ∃ m', x = some (y.1.mapError .script, m', y.2.2) ∧ Shadows t m' y.2.1 ∧
    ∀ e, y.1 = .error e → e.IsOrdinary

theorem SameStep.ok {σ : Type} {m' : Machine} {tree' : Script.Machine} (h : Shadows t m' tree')
    (r : Step) (s : σ) : SameStep t (some (.ok r, m', s)) (.ok r, tree', s) :=
  ⟨m', rfl, h, fun _ he => by cases he⟩

theorem Shadows.halt (h : Shadows t m tree) : Shadows t m.halt tree.halt where
  store := h.store
  recorded := rfl
  units := h.units
  awaiting := rfl
  finished := rfl
  frames hne := absurd rfl hne

theorem Shadows.after {σ : Type} (h : Shadows t m tree) (hready : tree.status = .ready)
    {p : List Frame × Store} {q : Position} (hp : PositionAt t p q) (s : σ) :
    SameStep t (some (m.after t p s))
      (.ok (if (tree.advance q).isFinished then .done else .continue), tree.advance q, s) := by
  obtain ⟨hframes, hplaced, hstore⟩ := hp
  obtain ⟨fs, hfs, hsettled⟩ := hframes.settle
  have hempty : (Script.settle q.1).isEmpty = fs.isEmpty := (isEmpty_framesAt hsettled).symm
  have hstatus : (tree.advance q).status = if fs.isEmpty then .finished else .ready := by
    rw [Script.Machine.advance, hempty]
  have hfinished : fs.isEmpty = (tree.advance q).isFinished := by
    rw [Script.Machine.isFinished, hstatus]
    cases fs.isEmpty <;> rfl
  have hawaiting : m.awaiting = awaited? (tree.advance q).status := by
    rw [h.awaiting, hready, hstatus]
    cases fs.isEmpty <;> rfl
  have hunits : m.units + 1 = (tree.advance q).units := by rw [h.units]; rfl
  rw [← hfinished, Machine.after, hfs]
  refine .ok ?_ _ s
  refine ⟨hstore, rfl, hunits, hawaiting, hfinished, fun _ => ⟨_, hsettled, hplaced.settle, ?_⟩⟩
  rw [settle_settle, Script.Machine.advance, settle_settle]

theorem Shadows.unit {σ : Type} (h : Shadows t m tree) (hready : tree.status = .ready)
    {fs : List Frame} {gs : List Script.Frame} (hframes : FramesAt t fs (enter (Script.settle gs)))
    (hplaced : PlacedFrames gs) (hsame : enter (Script.settle gs) = enter (Script.settle tree.frames))
    {x : Calc σ (List Frame × Store)} {y : Evaluation σ Position}
    (hx : Follows (PositionAt t) x y) (tape : Tape σ) :
    SameStep t ((x tape).map (m.conclude t fs)) (match y tape with
      | (.ok position, tape) =>
        (.ok (if (tree.advance position).isFinished then .done else .continue),
          tree.advance position, tape.host)
      | (.error (.suspend call), tape) =>
        (.ok (.suspend call), { tree with
          frames := Script.settle tree.frames, recorded := tape.journal.entries
          status := .awaiting call }, tape.host)
      | (.error (.fail e), tape) => (.error e, tree.halt, tape.host)) := by
  have hx := hx tape
  rcases hy : y tape with ⟨(call | e) | q, after⟩
  · rw [hy] at hx
    dsimp only at hx ⊢
    rw [hx]
    have hfinished : m.finished = false := by rw [h.finished, hready]; rfl
    refine .ok ?_ _ _
    refine ⟨h.store, rfl, h.units, rfl, hfinished, fun _ => ⟨_, hframes, hplaced.settle.enter, ?_⟩⟩
    rw [settle_enter_settle, enter_enter, settle_settle, hsame]
  · rw [hy] at hx
    dsimp only at hx ⊢
    rw [hx.1]
    refine ⟨_, rfl, h.halt, fun e' he' => ?_⟩
    cases he'
    exact hx.2
  · rw [hy] at hx
    obtain ⟨p, hx, hposition⟩ := hx
    rw [hx]
    exact h.after hready hposition _

theorem Machine.step_of_located {σ : Type} {host : Host σ} (hfinished : m.finished = false)
    (hawaiting : m.awaiting = none) {f : Frame} {fs fs' : List Frame}
    (hsettle : settle t m.frames = .ok (f :: fs)) {task : Task}
    (hlocate : locate t (f :: fs) = .ok (task, fs')) (s : σ) : m.step host t s =
      (task.run host t m.store fs' ⟨.ofEntries m.recorded, s⟩).map (m.conclude t fs') := by
  unfold step
  rw [hfinished, hawaiting, hsettle]
  simp only [Bool.false_eq_true, if_false, Option.isSome_none, hlocate]

/-- A step of the one machine is a step of the other. -/
theorem Shadows.step {σ : Type} (hsound : t.Sound) (h : Shadows t m tree) (host : Host σ) (s : σ) :
    SameStep t (m.step host t s) (tree.step host s) := by
  have hfinished := h.finished
  have hawaiting := h.awaiting
  cases hstatus : tree.status with
  | finished =>
    rw [hstatus] at hfinished
    rw [Machine.step, Script.Machine.step, hstatus, hfinished]
    exact .ok h _ s
  | awaiting call =>
    rw [hstatus] at hfinished hawaiting
    rw [Machine.step, Script.Machine.step, hstatus, hfinished, hawaiting]
    exact .ok h _ s
  | ready =>
    rw [hstatus] at hfinished hawaiting
    -- an earlier try of the unit may have entered a loop already, which the tree's machine has not kept
    obtain ⟨gs, hframes, hplaced, hsame⟩ := h.frames (by simp [hstatus])
    obtain ⟨fs, hfs, hsettled⟩ := hframes.settle
    cases hsettled' : Script.settle gs with
    | nil =>
      rw [hsettled'] at hsettled hsame
      cases hsettled
      have hnil : Script.settle tree.frames = [] := enter_eq_nil hsame.symm
      have hstopped : Shadows t { m with frames := [], awaiting := none, finished := true }
          { tree with frames := [], status := .finished } :=
        ⟨h.store, h.recorded, h.units, rfl, rfl, fun hne => absurd rfl hne⟩
      rw [Machine.step, Script.Machine.step, hstatus, hfinished, hawaiting, hfs, hnil]
      exact SameStep.ok hstopped .done s
    | cons g gs' =>
      have hsome : Script.settle gs ≠ [] := by
        rw [hsettled']
        exact List.cons_ne_nil _ _
      have htree : Script.settle tree.frames ≠ [] := by
        intro hnil
        rw [hnil] at hsame
        exact hsome (enter_eq_nil hsame)
      obtain ⟨task, fs', hlocate, hfs', hfollows⟩ :=
        located host m.store hsound hsettled (settle_settle gs) hsome hplaced.settle
      rw [← runUnit_enter, hsame, runUnit_enter, h.store] at hfollows
      rw [hsettled'] at hsettled
      cases hsettled with
      | cons =>
        rw [Machine.step_of_located hfinished hawaiting hfs hlocate, h.recorded, h.store,
          tree.step_of_ready host hstatus htree, Script.Machine.unit, replay_unitDialogue]
        exact h.unit hstatus hfs' hplaced hsame hfollows _

theorem Shadows.resolve (h : Shadows t m tree) {v : Value} {m' : Machine}
    (hm : m.resolve? v = some m') : ∃ tree', tree.resolve? v = some tree' ∧ Shadows t m' tree' := by
  have hawaiting := h.awaiting
  unfold Machine.resolve? at hm
  unfold Script.Machine.resolve?
  cases hstatus : tree.status with
  | ready | finished =>
    rw [hstatus] at hawaiting
    rw [hawaiting] at hm
    cases hm
  | awaiting call =>
    rw [hstatus] at hawaiting
    rw [hawaiting] at hm
    cases hm
    have hfinished : m.finished = false := by rw [h.finished, hstatus]; rfl
    have hframes := h.frames (by simp [hstatus])
    exact ⟨_, rfl, h.store, congrArg (· ++ [v]) h.recorded, h.units, rfl, hfinished, fun _ => hframes⟩

theorem Shadows.resolve_back (h : Shadows t m tree) {v : Value} {tree' : Script.Machine}
    (hm : tree.resolve? v = some tree') : ∃ m', m.resolve? v = some m' ∧ Shadows t m' tree' := by
  have hawaiting := h.awaiting
  obtain ⟨call, hstatus⟩ : ∃ call, tree.status = .awaiting call := by
    unfold Script.Machine.resolve? at hm
    split at hm
    next call hstatus => exact ⟨call, hstatus⟩
    next => cases hm
  have hresolved : m.resolve? v = some { m with recorded := m.recorded ++ [v], awaiting := none } := by
    rw [Machine.resolve?, hawaiting, hstatus]
    rfl
  obtain ⟨tree'', htree, hshadows⟩ := h.resolve hresolved
  obtain rfl := Option.some.inj (hm.symm.trans htree)
  exact ⟨_, hresolved, hshadows⟩

/-! Whole runs. -/

section

variable {program : Program} (hsound : t.Sound) (h : BlockAt t program 0)
  (hp : placedAll false program = true)

include hsound h hp

theorem shadows_of_reached (hm : Machine.Reached t m) :
    ∃ tree, Script.Machine.Reached program tree ∧ Shadows t m tree := by
  induction hm with
  | start => exact ⟨_, .start, shadows_start h hp⟩
  | @step σ host s s' m m' r _ hstep ih =>
    obtain ⟨tree, hreached, hshadows⟩ := ih
    obtain ⟨m'', heq, hshadows', -⟩ := hshadows.step hsound host s
    rw [hstep] at heq
    cases heq
    exact ⟨_, hreached.step host s, hshadows'⟩
  | resolve _ hresolve ih =>
    obtain ⟨tree, hreached, hshadows⟩ := ih
    obtain ⟨tree', heq, hshadows'⟩ := hshadows.resolve hresolve
    exact ⟨tree', hreached.resolve heq, hshadows'⟩

theorem reached_of_shadows (htree : Script.Machine.Reached program tree) :
    ∃ m, Machine.Reached t m ∧ Shadows t m tree := by
  induction htree with
  | start => exact ⟨_, .start, shadows_start h hp⟩
  | step host s _ ih =>
    obtain ⟨m, hreached, hshadows⟩ := ih
    obtain ⟨m', heq, hshadows', -⟩ := hshadows.step hsound host s
    exact ⟨m', hreached.step heq, hshadows'⟩
  | resolve _ hresolve ih =>
    obtain ⟨m, hreached, hshadows⟩ := ih
    obtain ⟨m', heq, hshadows'⟩ := hshadows.resolve_back hresolve
    exact ⟨m', hreached.resolve heq, hshadows'⟩

end

/-- Whether a machine on the tables holds its assumptions whatever the host is: its step comes to an end,
and neither to a flaw nor to a jump without a loop. -/
def Machine.Unbroken (t : Tables) (m : Machine) : Prop :=
  ∀ {σ : Type} (host : Host σ) (s : σ), ∃ r m' s', m.step host t s = some (r, m', s') ∧
    (∀ flaw, r ≠ .error (.flaw flaw)) ∧
    ∀ e, r = .error (.script e) → e.IsOrdinary

/-- Whether the machine on the tables takes the step that the machine on the tree takes. -/
def Machine.StepsAs (t : Tables) (m : Machine) (tree : Script.Machine) : Prop :=
  ∀ {σ : Type} (host : Host σ) (s : σ), ∃ m',
    m.step host t s = some ((tree.step host s).1.mapError .script, m', (tree.step host s).2.2)

theorem Shadows.stepsAs (hsound : t.Sound) (h : Shadows t m tree) : m.StepsAs t tree := by
  intro σ host s
  obtain ⟨m', hstep, -⟩ := h.step hsound host s
  exact ⟨m', hstep⟩

theorem Shadows.unbroken (hsound : t.Sound) (h : Shadows t m tree) : m.Unbroken t := by
  intro σ host s
  obtain ⟨m', hstep, -, hordinary⟩ := h.step hsound host s
  refine ⟨_, m', _, hstep, fun flaw hflaw => ?_, fun e he => ?_⟩
  · cases hr : (tree.step host s).1 <;> rw [hr] at hflaw <;> cases hflaw
  · cases hr : (tree.step host s).1 with
    | ok =>
      rw [hr] at he
      cases he
    | error e' =>
      rw [hr] at he
      cases he
      exact hordinary e hr

theorem countdown_parsed : Script.parse ("for (;;) \x7b iffy-=a -(0-b)/a.end; /*?*/" ++
    "if(!iffy)\x7bbreak;\x7delse if(true)\x7bcontinue;\x7d\x7d") = .ok countdown :=
  @parse_layout .whereNeeded countdown countdown_plain [] .nil countdownLayout (by decide)
    countdownLayout_spaced (by unfold Layout.WordsApart; decide)

/-- A text that is accepted fills sound tables, whose jumps stand in loops. Whatever is done with the
machine that runs from them, no step breaks its assumptions or goes on for ever; and it steps as the machine
of the tree does, which never comes upon a jump without a loop either. -/
theorem accepted_unbroken {text : String} {program : Program} (h : Script.parse text = .ok program) :
    ∃ t, parse text = .ok t ∧ t.Sound ∧ t.JumpsInLoops ∧
      (∀ m, Machine.Reached t m → m.Unbroken t ∧
        ∃ tree, Script.Machine.Reached program tree ∧ m.StepsAs t tree) ∧
      ∀ tree, Script.Machine.Reached program tree →
        (∃ m, Machine.Reached t m ∧ m.StepsAs t tree) ∧
        ∀ {σ : Type} (host : Host σ) (s : σ) (e : Error),
          (tree.step host s).1 = .error e → e.IsOrdinary := by
  obtain ⟨t, ht, hsound, hat⟩ := parse_ok h
  have hplaced : placedAll false program = true := placed_of_parse h
  refine ⟨t, ht, hsound, jumpsInLoops hat hplaced, fun m hm => ?_, fun tree htree => ?_⟩
  · obtain ⟨tree, hreached, hshadows⟩ := shadows_of_reached hsound hat hplaced hm
    exact ⟨hshadows.unbroken hsound, tree, hreached, hshadows.stepsAs hsound⟩
  · obtain ⟨m, hreached, hshadows⟩ := reached_of_shadows hsound hat hplaced htree
    refine ⟨⟨m, hreached, hshadows.stepsAs hsound⟩, fun host s e he => ?_⟩
    obtain ⟨_, -, -, hordinary⟩ := hshadows.step hsound host s
    exact hordinary e he

/-- A loop without clauses, with both jumps in its body. -/
theorem countdown_unbroken : ∃ t, parse ("for (;;) \x7b iffy-=a -(0-b)/a.end; /*?*/" ++
      "if(!iffy)\x7bbreak;\x7delse if(true)\x7bcontinue;\x7d\x7d") = .ok t ∧
    t.Sound ∧ t.JumpsInLoops ∧ ∀ m, Machine.Reached t m → m.Unbroken t := by
  obtain ⟨t, ht, hsound, hjumps, hruns, -⟩ := accepted_unbroken countdown_parsed
  exact ⟨t, ht, hsound, hjumps, fun m hm => (hruns m hm).1⟩

end Indexed

end ScopeBlocks.Script
