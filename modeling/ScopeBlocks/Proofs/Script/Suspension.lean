import ScopeBlocks.Proofs.Script.Replay

/-! Suspension cannot be seen. However a machine is driven, what it does is a prefix of what the
reference run does with the same values, and whenever it is not in the middle of a unit both stand at the
same place. The reference run in turn is reached to any depth by some driver. -/
namespace ScopeBlocks.Script

variable {σ : Type} {host : Host σ} {program : Program} {s : σ}

def Verdict.ofEnd : Except Error Unit → Verdict
  | .ok _ => .done
  | .error e => .failed e

/-- A machine in the middle of a unit that began in the world `w₀`, after the values `before`. The unit
has taken the values `used` and has `x` still to do. -/
structure Within (host : Host σ) (program : Program) (s : σ) (before used : List Value)
    (w₀ w : Watched σ) (m : Machine) (x : Dialogue Position) : Prop where
  reached : ∀ later, ∃ frames, settle frames = settle m.frames ∧
    (Reference.start program s (before ++ later)).run host m.units =
      (.running, ⟨frames, m.store, m.units, w₀, later⟩)
  left : m.unit.after m.recorded = some x
  live : ∀ later, m.unit.live host w₀ (used ++ later) = x.live host w later

/-- How a driver stands to the reference run. -/
inductive Aligned (host : Host σ) (program : Program) (s : σ) : Driver σ → Prop where
  | ready {m : Machine} {w₀ w : Watched σ} {x : Dialogue Position} {before used : List Value}
      (status : m.status = .ready) (within : Within host program s before used w₀ w m x)
      (fresh : m.recorded = [] → used = [] ∧ w = w₀) :
      Aligned host program s ⟨m, w, before ++ used, none⟩
  | awaiting {m : Machine} {w₀ w : Watched σ} {call : AsyncCall} {p : Primitive}
      {args : List Value} {next : Value → Dialogue Position} {before used : List Value}
      (status : m.status = .awaiting call)
      (within : Within host program s before used w₀ w m (.ask p args next))
      (asks : p.perform host.watched args = .suspend call) :
      Aligned host program s ⟨m, w.note (.issue call), before ++ used, none⟩
  | ended {m : Machine} {w : Watched σ} {delivered : List Value} {result : Except Error Unit}
      (n : Nat) (status : m.status = .finished)
      (reached : ∀ later, ∃ frames,
        (Reference.start program s (delivered ++ later)).run host n =
          (.ofEnd result, ⟨frames, m.store, m.units, w, later⟩)) :
      Aligned host program s ⟨m, w, delivered, some result⟩

theorem Machine.unit_of_empty {m : Machine} (hf : settle m.frames = []) :
    m.unit = .value ([], m.store) := by
  unfold unit
  rw [hf]
  rfl

theorem Aligned.of_fresh {m : Machine} {w : Watched σ} {delivered : List Value}
    (status : m.status = .ready) (recorded : m.recorded = [])
    (reached : ∀ later, ∃ frames, settle frames = settle m.frames ∧
      (Reference.start program s (delivered ++ later)).run host m.units =
        (.running, ⟨frames, m.store, m.units, w, later⟩)) :
    Aligned host program s ⟨m, w, delivered, none⟩ := by
  have within : Within host program s delivered [] w w m m.unit :=
    ⟨reached, by rw [recorded]; rfl, fun _ => rfl⟩
  have h := Aligned.ready status within fun _ => ⟨rfl, rfl⟩
  rwa [List.append_nil] at h

theorem aligned_start : Aligned host program s (.start program s) :=
  .of_fresh rfl rfl fun _ => ⟨_, rfl, rfl⟩

section Step

variable {before used : List Value} {w₀ w : Watched σ} {m : Machine} {x : Dialogue Position}

/-- The reference run at the end of a unit, as what is left of the unit decides. -/
theorem Within.run (h : Within host program s before used w₀ w m x) (hf : settle m.frames ≠ [])
    (later : List Value) : ∃ frames,
      (Reference.start program s (before ++ used ++ later)).run host (m.units + 1) =
        match x.live host w later with
        | (.value position, w, answers) =>
          (.running, ⟨settle position.1, position.2, m.units + 1, w, answers⟩)
        | (.failed e, w, answers) => (.failed e, ⟨frames, m.store, m.units, w, answers⟩)
        | (.starved call, w, answers) =>
          (.starved call, ⟨frames, m.store, m.units, w, answers⟩) := by
  obtain ⟨frames, hframes, hrun⟩ := h.reached (used ++ later)
  refine ⟨frames, ?_⟩
  rw [List.append_assoc, Reference.run_succ_of_running hrun, ← h.live later,
    Reference.step_of_live (hframes ▸ hf), hframes]
  rfl

theorem Aligned.step_of_empty (status : m.status = .ready)
    (within : Within host program s before used w₀ w m x) (fresh : m.recorded = [] → used = [] ∧ w = w₀)
    (hf : settle m.frames = []) :
    Aligned host program s
      (Driver.hear ⟨m, w, before ++ used, none⟩ (m.step host.watched w)) := by
  have hs : m.step host.watched w =
      (.ok .done, { m with frames := [], status := .finished }, w) := by
    unfold Machine.step
    rw [status]
    dsimp only
    rw [hf]
  have hrec : m.recorded = [] := by
    have left := within.left
    rw [Machine.unit_of_empty hf] at left
    cases hr : m.recorded with
    | nil => rfl
    | cons v vs => simp only [hr, Dialogue.after, reduceCtorEq] at left
  obtain ⟨rfl, rfl⟩ := fresh hrec
  rw [hs]
  refine .ended (m.units + 1) rfl fun later => ?_
  obtain ⟨frames, hframes, hrun⟩ := within.reached later
  refine ⟨frames, ?_⟩
  rw [List.append_nil, Reference.run_succ_of_running hrun]
  exact Reference.step_of_empty (hframes.trans hf)

theorem Aligned.of_value {position : Position} {w' : Watched σ}
    (within : Within host program s before used w₀ w m x) (hf : settle m.frames ≠ [])
    (live : ∀ later, x.live host w later = (.value position, w', later)) :
    Aligned host program s (Driver.hear ⟨m, w, before ++ used, none⟩
      (.ok (if (m.advance position).isFinished then .done else .continue), m.advance position,
        w')) := by
  have hrun (later : List Value) :
      (Reference.start program s (before ++ used ++ later)).run host (m.units + 1) =
        (.running, ⟨settle position.1, position.2, m.units + 1, w', later⟩) := by
    obtain ⟨frames, h⟩ := within.run hf later
    rwa [live] at h
  by_cases hp : settle position.1 = []
  · have hstatus : (m.advance position).status = .finished := by
      simp [Machine.advance, hp]
    have hfin : (m.advance position).isFinished = true := by
      simp [Machine.isFinished, hstatus]
    simp only [hfin, if_true]
    refine .ended (m.units + 2) hstatus fun later => ⟨settle position.1, ?_⟩
    rw [Reference.run_succ_of_running (hrun later)]
    exact Reference.step_of_empty ((settle_settle _).trans hp)
  · have hstatus : (m.advance position).status = .ready := by
      simp [Machine.advance, hp]
    have hfin : (m.advance position).isFinished = false := by
      simp [Machine.isFinished, hstatus]
    simp only [hfin]
    exact .of_fresh hstatus rfl fun later => ⟨_, rfl, hrun later⟩

theorem Aligned.of_failed {e : Error} {w' : Watched σ}
    (within : Within host program s before used w₀ w m x) (hf : settle m.frames ≠ [])
    (live : ∀ later, x.live host w later = (.failed e, w', later)) :
    Aligned host program s
      (Driver.hear ⟨m, w, before ++ used, none⟩ (.error e, m.halt, w')) := by
  refine .ended (m.units + 1) rfl fun later => ?_
  obtain ⟨frames, h⟩ := within.run hf later
  rw [live] at h
  exact ⟨frames, h⟩

theorem Aligned.of_suspended {call : AsyncCall} {tape : Tape (Watched σ)} {vs : List Value}
    {p : Primitive} {args : List Value} {next : Value → Dialogue Position}
    (within : Within host program s before used w₀ w m x)
    (entries : tape.journal.entries = m.recorded ++ vs)
    (left : x.after vs = some (.ask p args next))
    (asks : p.perform host.watched args = .suspend call)
    (live : ∀ later,
      x.live host w later = (Dialogue.ask p args next).live host tape.host later) :
    Aligned host program s (Driver.hear ⟨m, w, before ++ used, none⟩ (.ok (.suspend call), { m with
      frames := settle m.frames, recorded := tape.journal.entries, status := .awaiting call },
      tape.host)) := by
  have hunit : unitDialogue m.store (settle (settle m.frames)) = m.unit := by
    rw [settle_settle]
    rfl
  have h : Within host program s before used w₀ tape.host { m with
      frames := settle m.frames, recorded := tape.journal.entries, status := .awaiting call }
      (.ask p args next) := by
    refine ⟨fun later => ?_, ?_, fun later => ?_⟩
    · rw [settle_settle]
      exact within.reached later
    · change (unitDialogue m.store (settle (settle m.frames))).after tape.journal.entries = _
      rw [hunit, entries, Dialogue.after_append within.left, left]
    · change (unitDialogue m.store (settle (settle m.frames))).live host w₀ _ = _
      rw [hunit, within.live, live]
  exact .awaiting rfl h asks

theorem Aligned.step {d : Driver σ} (h : Aligned host program s d) :
    Aligned host program s (d.hear (d.machine.step host.watched d.world)) := by
  cases h with
  | @ready m w₀ w x before used status within fresh =>
    by_cases hf : settle m.frames = []
    · exact .step_of_empty status within fresh hf
    · have hx := x.replayed host (m.recorded.reverse ++ []) w
      rw [← Dialogue.replay_ahead host.watched within.left] at hx
      change Replayed host x _ w (m.unit.replay host.watched ⟨.ofEntries m.recorded, w⟩) at hx
      dsimp only
      rw [Machine.step_of_ready host.watched status hf]
      generalize m.unit.replay host.watched ⟨.ofEntries m.recorded, w⟩ = result at hx
      cases hx with
      | value live => exact .of_value within hf live
      | failed live => exact .of_failed within hf live
      | suspended vs entries left asks live =>
        rw [List.append_nil, List.reverse_reverse] at entries
        exact .of_suspended within entries left asks live
  | @awaiting m w₀ w call p args next before used status within asks =>
    have hs : m.step host.watched (w.note (.issue call)) = (.ok .pending, m, w.note (.issue call)) := by
      unfold Machine.step
      rw [status]
    dsimp only
    rw [hs]
    exact .awaiting status within asks
  | @ended m w delivered result n status reached =>
    have hs : m.step host.watched w = (.ok .done, m, w) := by
      unfold Machine.step
      rw [status]
    dsimp only
    rw [hs]
    exact .ended n status reached

end Step

section Calls

theorem Aligned.runBounded (budget : Nat) {d : Driver σ} (h : Aligned host program s d) :
    Aligned host program s (d.hear (d.machine.runBounded host.watched budget d.world)) := by
  induction budget generalizing d with
  | zero =>
    unfold Machine.runBounded
    cases h with
    | @ready m w₀ w x before used status within fresh =>
      simp only [Machine.isFinished, status]
      exact .ready status within fresh
    | @awaiting m w₀ w call p args next before used status within asks =>
      simp only [Machine.isFinished, status]
      exact .awaiting status within asks
    | @ended m w delivered result n status reached =>
      simp only [Machine.isFinished, status]
      exact .ended n status reached
  | succ budget ih =>
    have hstep := h.step
    unfold Machine.runBounded
    rcases hs : d.machine.step host.watched d.world with ⟨r, m, w⟩
    rw [hs] at hstep
    cases r with
    | error => exact hstep
    | ok step =>
      cases step with
      | «continue» => exact ih hstep
      | suspend | pending | done => exact hstep

theorem Aligned.run {d : Driver σ} (h : Aligned host program s d)
    {r : Except Error Step × Machine × Watched σ}
    (hr : d.machine.Runs host.watched d.world r) : Aligned host program s (d.hear r) := by
  generalize hm : d.machine = m, hw : d.world = w at hr
  induction hr generalizing d with
  | stops =>
    subst hm hw
    exact h.step
  | goesOn hs _ ih =>
    subst hm hw
    have hstep := h.step
    rw [hs] at hstep
    have hrest := ih hstep rfl rfl
    exact hrest

theorem Aligned.deliver {d : Driver σ} (h : Aligned host program s d) (v : Value) :
    Aligned host program s (d.deliver v) := by
  unfold Driver.deliver Machine.resolve?
  cases h with
  | @ready m w₀ w x before used status within fresh =>
    simp only [status]
    exact .ready status within fresh
  | @ended m w delivered result n status reached =>
    simp only [status]
    exact .ended n status reached
  | @awaiting m w₀ w call p args next before used status within asks =>
    simp only [status]
    have h : Within host program s before (used ++ [v]) w₀ (w.note (.issue call))
        { m with recorded := m.recorded ++ [v], status := .ready } (next v) := by
      refine ⟨within.reached, Dialogue.after_append within.left, fun later => ?_⟩
      change m.unit.live host w₀ _ = _
      rw [List.append_assoc, within.live]
      exact Dialogue.live_ask_of_suspend asks v
    rw [List.append_assoc]
    refine .ready rfl h fun hr => ?_
    exact absurd hr (List.append_ne_nil_of_right_ne_nil _ (List.cons_ne_nil v []))

theorem Aligned.call {d e : Driver σ} (h : Aligned host program s d) {c : DriverCall}
    (hc : d.Called host c e) : Aligned host program s e := by
  cases hc with
  | step => exact h.step
  | run hr => exact h.run hr
  | runBounded budget => exact h.runBounded budget
  | resolve v => exact h.deliver v

theorem Aligned.driven {calls : List DriverCall} {d e : Driver σ} (h : Aligned host program s d)
    (hd : Driver.Driven host calls d e) : Aligned host program s e := by
  induction hd with
  | nil he => exact he ▸ h
  | cons call _ ih => exact ih (h.call call)

end Calls

namespace Driver

/-- What a driver knows of its run. -/
def verdict (d : Driver σ) : Verdict :=
  match d.ended, d.machine.status with
  | some result, _ => .ofEnd result
  | none, .awaiting call => .starved call
  | none, _ => .running

/-- Whether no value has been delivered that the machine has not gone on with yet. -/
def AtRest (d : Driver σ) : Prop := d.machine.status = .ready → d.machine.recorded = []

/-- Everything that can be seen of a driver's run is as in a reference run. -/
structure Agrees (d : Driver σ) (out : Verdict × Reference σ) : Prop where
  verdict : d.verdict = out.1
  world : d.world = out.2.world
  store : d.machine.store = out.2.store
  units : d.machine.units = out.2.units

end Driver

theorem Within.frames_ne_nil {before used : List Value} {w₀ w : Watched σ} {m : Machine}
    {p : Primitive} {args : List Value} {next : Value → Dialogue Position}
    (h : Within host program s before used w₀ w m (.ask p args next)) : settle m.frames ≠ [] := by
  intro hf
  have left := h.left
  rw [Machine.unit_of_empty hf] at left
  cases hr : m.recorded <;> rw [hr] at left <;> cases left

theorem Aligned.agrees {d : Driver σ} (h : Aligned host program s d) (rest : d.AtRest)
    {later : List Value} (hl : d.machine.isSuspended = true → later = []) : ∃ n,
      d.Agrees ((Reference.start program s (d.delivered ++ later)).run host n) ∧
        ((Reference.start program s (d.delivered ++ later)).run host n).2.answers = later ∧
          (d.verdict = .running → n = d.machine.units) := by
  cases h with
  | @ready m w₀ w x before used status within fresh =>
    obtain ⟨rfl, rfl⟩ := fresh (rest status)
    obtain ⟨frames, -, hrun⟩ := within.reached later
    refine ⟨m.units, ?_⟩
    rw [List.append_nil, hrun]
    exact ⟨⟨by simp only [Driver.verdict, status], rfl, rfl, rfl⟩, rfl, fun _ => rfl⟩
  | @awaiting m w₀ w call p args next before used status within asks =>
    obtain rfl := hl (by simp only [Machine.isSuspended, status])
    obtain ⟨frames, hrun⟩ := within.run within.frames_ne_nil []
    have hv : Driver.verdict ⟨m, w.note (.issue call), before ++ used, none⟩ = .starved call := by
      simp only [Driver.verdict, status]
    refine ⟨m.units + 1, ?_⟩
    rw [hrun, Dialogue.live_ask_of_suspend_nil asks]
    exact ⟨⟨hv, rfl, rfl, rfl⟩, rfl, fun h => absurd (hv.symm.trans h) (by simp)⟩
  | @ended m w delivered result n status reached =>
    obtain ⟨frames, hrun⟩ := reached later
    refine ⟨n, ?_⟩
    rw [hrun]
    exact ⟨⟨rfl, rfl, rfl, rfl⟩, rfl, fun h => by cases result <;> cases h⟩

theorem Aligned.trace_prefix {d : Driver σ} (h : Aligned host program s d) (later : List Value) :
    ∃ n, d.world.trace <+:
      ((Reference.start program s (d.delivered ++ later)).run host n).2.world.trace := by
  have within {m : Machine} {w₀ w : Watched σ} {x : Dialogue Position} {before used : List Value}
      (h : Within host program s before used w₀ w m x) :
      ((Reference.start program s (before ++ used ++ later)).run host (m.units + 1)).2.world =
        (x.live host w later).2.1 := by
    obtain ⟨frames, hframes, hrun⟩ := h.reached (used ++ later)
    rw [List.append_assoc, Reference.run_succ_of_running hrun, Reference.step_world, ← h.live, hframes]
    rfl
  cases h with
  | @ready m w₀ w x before used status hw fresh =>
    refine ⟨m.units + 1, ?_⟩
    rw [within hw]
    exact x.trace_prefix_live w later
  | @awaiting m w₀ w call p args next before used status hw asks =>
    refine ⟨m.units + 1, ?_⟩
    rw [within hw]
    cases later with
    | nil =>
      simp only [Dialogue.live_ask_of_suspend_nil asks, List.prefix_rfl]
    | cons v later =>
      rw [Dialogue.live_ask_of_suspend asks]
      exact (next v).trace_prefix_live _ later
  | @ended m w delivered result n status reached =>
    obtain ⟨frames, hrun⟩ := reached later
    refine ⟨n, ?_⟩
    simp only [hrun, List.prefix_rfl]

/-! Conversely a driver that steps its machine and delivers each value when it is awaited gets as far as
the reference run. -/

section Progress

/-- How a driver stands that has gone as far as it can with the values it was given, through no more units
than it was to: its run has ended, it stands between two units, or it waits and no value is left. -/
inductive Driver.CaughtUp (d : Driver σ) (units : Nat) (rest : List Value) : Prop where
  | ended (result : Except Error Unit) (ended : d.ended = some result)
      (status : d.machine.status = .finished)
      (within : d.machine.units < units ∨ result = .ok () ∧ d.machine.units = units)
  | between (ended : d.ended = none) (status : d.machine.status = .ready)
      (recorded : d.machine.recorded = []) (units : d.machine.units = units)
  | waiting (call : AsyncCall) (ended : d.ended = none) (status : d.machine.status = .awaiting call)
      (rest : rest = []) (within : d.machine.units < units)

theorem Driver.step_of_ready (host : Host σ) {d : Driver σ} (hm : d.machine.status = .ready)
    (hd : d.ended = none) : ∃ e, d.Called host .step e ∧ e.delivered = d.delivered ∧
      ((∀ rest, e.CaughtUp (d.machine.units + 1) rest) ∨
        ∃ call, e.ended = none ∧ e.machine.status = .awaiting call ∧
          e.machine.units = d.machine.units) := by
  obtain ⟨m, w, delivered, ended⟩ := d
  subst hd
  refine ⟨_, .step, ?_⟩
  by_cases hf : settle m.frames = []
  · have hs : m.step host.watched w =
        (.ok .done, { m with frames := [], status := .finished }, w) := by
      unfold Machine.step
      rw [hm]
      dsimp only
      rw [hf]
    dsimp only
    rw [hs]
    exact ⟨rfl, .inl fun _ => .ended (.ok ()) rfl rfl (.inl (Nat.lt_succ_self _))⟩
  · dsimp only
    rw [Machine.step_of_ready host.watched hm hf]
    rcases m.unit.replay host.watched ⟨.ofEntries m.recorded, w⟩ with
      ⟨(call | e) | position, tape⟩
    · exact ⟨rfl, .inr ⟨call, rfl, rfl, rfl⟩⟩
    · exact ⟨rfl, .inl fun _ => .ended (.error e) rfl rfl (.inl (Nat.lt_succ_self _))⟩
    · by_cases hp : settle position.1 = []
      · have hstatus : (m.advance position).status = .finished := by simp [Machine.advance, hp]
        have hfin : (m.advance position).isFinished = true := by
          simp [Machine.isFinished, hstatus]
        simp only [hfin, if_true]
        exact ⟨rfl, .inl fun _ => .ended (.ok ()) rfl hstatus (.inr ⟨rfl, rfl⟩)⟩
      · have hstatus : (m.advance position).status = .ready := by simp [Machine.advance, hp]
        have hfin : (m.advance position).isFinished = false := by
          simp [Machine.isFinished, hstatus]
        simp only [hfin]
        exact ⟨rfl, .inl fun _ => .between rfl hstatus rfl rfl⟩

theorem Driver.deliver_of_awaiting {d : Driver σ} {call : AsyncCall}
    (hs : d.machine.status = .awaiting call) (v : Value) : d.deliver v =
      { d with
        machine := { d.machine with recorded := d.machine.recorded ++ [v], status := .ready }
        delivered := d.delivered ++ [v] } := by
  unfold deliver Machine.resolve?
  rw [hs]

theorem Driver.unit_driven (host : Host σ) (answers : List Value) {d : Driver σ}
    (hm : d.machine.status = .ready) (hd : d.ended = none) :
    ∃ calls e taken rest, Driven host calls d e ∧ e.delivered = d.delivered ++ taken ∧
      answers = taken ++ rest ∧ e.CaughtUp (d.machine.units + 1) rest := by
  induction answers generalizing d with
  | nil =>
    obtain ⟨e, hc, hdel, h⟩ := step_of_ready host hm hd
    refine ⟨[.step], e, [], [], .cons hc (.nil rfl), hdel.trans (List.append_nil _).symm, rfl, ?_⟩
    rcases h with h | ⟨call, hend, hs, hu⟩
    · exact h []
    · exact .waiting call hend hs rfl (hu ▸ Nat.lt_succ_self _)
  | cons v answers ih =>
    obtain ⟨e, hc, hdel, h | ⟨call, hend, hs, hu⟩⟩ := step_of_ready host hm hd
    · exact ⟨[.step], e, [], v :: answers, .cons hc (.nil rfl),
        hdel.trans (List.append_nil _).symm, rfl, h _⟩
    · -- the call takes the next value, and the unit goes on with one value fewer to come
      have hv := deliver_of_awaiting hs v
      obtain ⟨calls, f, taken, rest, hf, hdel', rfl, hcaught⟩ :=
        ih (d := e.deliver v) (by rw [hv]) (by rw [hv]; exact hend)
      rw [hv] at hdel' hcaught
      refine ⟨.step :: .resolve v :: calls, f, v :: taken, rest,
        .cons hc (.cons (.resolve v) hf), ?_, rfl, hu ▸ hcaught⟩
      rw [hdel', hdel, List.append_assoc, List.singleton_append]

theorem Driver.run_driven (host : Host σ) (program : Program) (s : σ) (answers : List Value)
    (n : Nat) : ∃ calls d rest, Driven host calls (start program s) d ∧
      answers = d.delivered ++ rest ∧ d.CaughtUp n rest := by
  induction n with
  | zero => exact ⟨[], _, answers, .nil rfl, rfl, .between rfl rfl rfl rfl⟩
  | succ n ih =>
    obtain ⟨calls, d, rest, hd, hanswers, hcaught⟩ := ih
    cases hcaught with
    | ended result hend hs within =>
      refine ⟨calls, d, rest, hd, hanswers, .ended result hend hs (.inl ?_)⟩
      exact within.elim Nat.lt_succ_of_lt fun h => h.2 ▸ Nat.lt_succ_self _
    | waiting call hend hs hrest within =>
      exact ⟨calls, d, rest, hd, hanswers, .waiting call hend hs hrest (Nat.lt_succ_of_lt within)⟩
    | between hend hs hr hu =>
      obtain ⟨more, e, taken, rest', he, hdel, rfl, hcaught⟩ := unit_driven host rest hs hend
      refine ⟨calls ++ more, e, rest', hd.append he, ?_, hu ▸ hcaught⟩
      rw [hanswers, hdel, List.append_assoc]

theorem Driver.CaughtUp.atRest {d : Driver σ} {units : Nat} {rest : List Value}
    (h : d.CaughtUp units rest) : d.AtRest := by
  intro hs
  cases h with
  | between _ _ recorded _ => exact recorded
  | ended _ _ status _ | waiting _ _ status _ _ => cases status.symm.trans hs

theorem Driver.CaughtUp.rest_eq_nil {d : Driver σ} {units : Nat} {rest : List Value}
    (h : d.CaughtUp units rest) (hs : d.machine.isSuspended = true) : rest = [] := by
  unfold Machine.isSuspended at hs
  cases h with
  | waiting _ _ _ hrest _ => exact hrest
  | between _ status _ _ | ended _ _ status _ => simp [status] at hs

theorem Driver.CaughtUp.units_of_running {d : Driver σ} {units : Nat} {rest : List Value}
    (h : d.CaughtUp units rest) (hv : d.verdict = .running) : d.machine.units = units := by
  unfold verdict at hv
  cases h with
  | between _ _ _ hunits => exact hunits
  | ended result hend _ _ => cases result <;> simp [hend, Verdict.ofEnd] at hv
  | waiting call hend status _ _ => simp [hend, status] at hv

end Progress

/-- However a machine is driven, its trace is a prefix of the trace of the run that never suspends, and
wherever it is not in the middle of a unit it has the same trace, host, variables, count of units and end.
The run that never suspends is reached to any depth. -/
theorem suspension_invisible (host : Host σ) (program : Program) (s : σ) :
    (∀ calls d, Driver.Driven host calls (.start program s) d →
      (∀ later, ∃ n, d.world.trace <+:
        ((Reference.start program s (d.delivered ++ later)).run host n).2.world.trace) ∧
      (d.AtRest → ∃ n, d.Agrees ((Reference.start program s d.delivered).run host n))) ∧
    ∀ answers n, ∃ m ≥ n, ∃ calls d, Driver.Driven host calls (.start program s) d ∧
      d.delivered <+: answers ∧ d.Agrees ((Reference.start program s answers).run host m) := by
  refine ⟨fun calls d hd => ?_, fun answers n => ?_⟩
  · have h : Aligned host program s d := aligned_start.driven hd
    refine ⟨h.trace_prefix, fun rest => ?_⟩
    obtain ⟨n, hn, -, -⟩ := h.agrees rest fun _ => rfl
    rw [List.append_nil] at hn
    exact ⟨n, hn⟩
  · obtain ⟨calls, d, rest, hd, rfl, hcaught⟩ := Driver.run_driven host program s answers n
    have h : Aligned host program s d := aligned_start.driven hd
    obtain ⟨k, hk, -, hrunning⟩ := h.agrees hcaught.atRest hcaught.rest_eq_nil
    by_cases hv : d.verdict = .running
    · have hkn : k = n := (hrunning hv).trans (hcaught.units_of_running hv)
      exact ⟨k, Nat.le_of_eq hkn.symm, calls, d, hd, List.prefix_append _ _, hk⟩
    · -- the reference run has come to its end, and stays there however many units it is given
      rcases hr : (Reference.start program s (d.delivered ++ rest)).run host k with ⟨v, r⟩
      rw [hr] at hk
      have hend := Reference.run_add_of_ended hr (fun h => hv (hk.verdict.trans h)) n
      refine ⟨k + n, Nat.le_add_left n k, calls, d, hd, List.prefix_append _ _, ?_⟩
      rwa [hend]

/-- One unit with a prompt and two calls, driven with steps while it waits. -/
theorem suspension_invisible_of_two_calls :
    let host : Host Unit := ⟨fun _ s => s, fun _ _ s => (some "b", s), fun _ s => s⟩
    let capture : Expr := .call .capture []
    let program : Program := [.eval (.call .print [.binary .add
      (.call .prompt [.literal (.string "a")]) (.binary .eq capture capture)])]
    let calls : List DriverCall :=
      [.step, .step, .resolve .null, .runBounded 2, .resolve .null, .runBounded 5, .step]
    let d : Driver Unit := ⟨⟨[], .empty, [], .finished, 1⟩,
      ⟨(), [.prompt "a" false, .issue (.device .capture), .issue (.device .capture), .print "btrue"]⟩,
      [.null, .null], some (.ok ())⟩
    Driver.Driven host calls (.start program ()) d ∧ d.AtRest ∧
      ∃ n, d.Agrees ((Reference.start program () [.null, .null]).run host n) := by
  intro host capture program calls d
  let waiting (issued : List Effect) (delivered : List Value) : Driver Unit :=
    ⟨⟨[.block program], .empty, .string "b" :: delivered, .awaiting (.device .capture), 0⟩,
      ⟨(), .prompt "a" false :: issued⟩, delivered, none⟩
  have hfirst : Driver.Called host (.start program ()) .step
      (waiting [.issue (.device .capture)] []) := .step
  have hagain : Driver.Called host (waiting [.issue (.device .capture)] []) .step
      (waiting [.issue (.device .capture)] []) := .step
  have hsecond : Driver.Driven host [.resolve .null, .runBounded 2]
      (waiting [.issue (.device .capture)] [])
      (waiting [.issue (.device .capture), .issue (.device .capture)] [.null]) :=
    .cons (.resolve _) (.cons (.runBounded _) (.nil rfl))
  have hlast : Driver.Driven host [.resolve .null, .runBounded 5, .step]
      (waiting [.issue (.device .capture), .issue (.device .capture)] [.null]) d :=
    .cons (.resolve _) (.cons (.runBounded _) (.cons .step (.nil rfl)))
  have hd : Driver.Driven host calls (.start program ()) d :=
    .cons hfirst (.cons hagain (hsecond.append hlast))
  have hr : d.AtRest := fun _ => rfl
  exact ⟨hd, hr, ((suspension_invisible host program ()).1 calls d hd).2 hr⟩

end ScopeBlocks.Script
