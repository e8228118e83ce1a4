import ScopeBlocks.Proofs.Script.Reference

/-! Machines under drivers. A driver steps its machine, lets it run or delivers a value, in any order and
at any time. What is invariant is the place of the machine in the reference run: it has reached the same
unit, its records are the results of the first calls of that unit, and what the unit still has to do is
what the reference run still does in it. -/
namespace ScopeBlocks.Script

variable {σ α : Type}

theorem settle_settle (frames : List Frame) : settle (settle frames) = settle frames := by
  fun_induction settle frames with
  | case1 frames ih => exact ih
  | case2 frames h =>
    unfold settle
    split
    · exact absurd rfl (h _)
    · rfl

/-- What doing a dialogue again from its first unrecorded call comes to. -/
inductive Replayed (host : Host σ) (x : Dialogue α) (taken : List Value) (w : Watched σ) :
    Except Interrupt α × Tape (Watched σ) → Prop where
  | value {a : α} {tape : Tape (Watched σ)}
      (live : ∀ later, x.live host w later = (.value a, tape.host, later)) :
      Replayed host x taken w (.ok a, tape)
  | failed {e : Error} {tape : Tape (Watched σ)}
      (live : ∀ later, x.live host w later = (.failed e, tape.host, later)) :
      Replayed host x taken w (.error (.fail e), tape)
  | suspended {call : AsyncCall} {tape : Tape (Watched σ)} {p : Primitive} {args : List Value}
      {next : Value → Dialogue α} (vs : List Value)
      (entries : tape.journal.entries = taken.reverse ++ vs)
      (left : x.after vs = some (.ask p args next))
      (asks : p.perform host.watched args = .suspend call)
      (live : ∀ later, x.live host w later =
        (Dialogue.ask p args next).live host tape.host later) :
      Replayed host x taken w (.error (.suspend call), tape)

namespace Dialogue

theorem replayed (host : Host σ) (x : Dialogue α) (taken : List Value) (w : Watched σ) :
    Replayed host x taken w (x.replay host.watched ⟨⟨taken, []⟩, w⟩) := by
  induction x generalizing taken w with
  | value a => exact .value fun _ => rfl
  | fail e => exact .failed fun _ => rfl
  | ask p args next ih =>
    have hp := p.performed host.watched args
    simp only [replay, Evaluation.bind_apply, Primitive.call, Evaluation.recordedOr]
    generalize hx : p.perform host.watched args = x at hp
    -- a call that the host answers is recorded, and the rest of the dialogue comes after it
    have answered (f : Watched σ → Value × Watched σ) (hf : x = .onHost f) :
        Replayed host (ask p args next) taken w
          ((next (f w).1).replay host.watched ⟨⟨(f w).1 :: taken, []⟩, (f w).2⟩) := by
      subst hf
      generalize hr : (next (f w).1).replay host.watched ⟨⟨(f w).1 :: taken, []⟩, (f w).2⟩ = r
      have h := ih (f w).1 ((f w).1 :: taken) (f w).2
      rw [hr] at h
      cases h with
      | value live => exact .value fun later => (live_ask_of_onHost hx).trans (live later)
      | failed live => exact .failed fun later => (live_ask_of_onHost hx).trans (live later)
      | suspended vs entries left asks live =>
        refine .suspended ((f w).1 :: vs) ?_ left asks
          fun later => (live_ask_of_onHost hx).trans (live later)
        rw [entries, List.reverse_cons, List.append_assoc, List.singleton_append]
    cases hp with
    | print text | prompt message numeric | mark id => exact answered _ rfl
    | fail e => exact .failed fun _ => live_ask_of_fail hx
    | suspend call => exact .suspended [] rfl rfl hx fun _ => rfl

theorem replay_ahead (host : Host σ) {x y : Dialogue α} {vs taken : List Value} {w : σ}
    (h : x.after vs = some y) :
    x.replay host ⟨⟨taken, vs⟩, w⟩ = y.replay host ⟨⟨vs.reverse ++ taken, []⟩, w⟩ := by
  induction vs generalizing x taken with
  | nil =>
    cases h
    rfl
  | cons v vs ih =>
    cases x with
    | value a => cases h
    | fail e => cases h
    | ask p args next =>
      rw [List.reverse_cons, List.append_assoc]
      exact ih h

end Dialogue

def Machine.unit (m : Machine) : Dialogue Position := unitDialogue m.store (settle m.frames)

theorem Machine.step_of_ready (host : Host σ) {m : Machine} (hm : m.status = .ready)
    (hf : settle m.frames ≠ []) (s : σ) : m.step host s =
      match m.unit.replay host ⟨.ofEntries m.recorded, s⟩ with
      | (.ok position, tape) =>
        (.ok (if (m.advance position).isFinished then .done else .continue), m.advance position,
          tape.host)
      | (.error (.suspend call), tape) =>
        (.ok (.suspend call), { m with
          frames := settle m.frames, recorded := tape.journal.entries, status := .awaiting call },
          tape.host)
      | (.error (.fail e), tape) => (.error e, m.halt, tape.host) := by
  unfold unit step
  rw [replay_unitDialogue]
  rw [hm]
  dsimp only
  split
  · exact absurd ‹_› hf
  · rfl

/-- A run that comes back has a number of units, and is the bounded run with that many. -/
theorem Machine.runs_iff {host : Host σ} {m : Machine} {s : σ}
    {r : Except Error Step × Machine × σ} :
    m.Runs host s r ↔ r.1 ≠ .ok .continue ∧ ∃ budget, m.runBounded host budget s = r := by
  constructor
  · intro h
    induction h with
    | @stops m s h =>
      refine ⟨h, 1, ?_⟩
      unfold runBounded
      split
      next heq =>
        rw [heq] at h
        exact absurd rfl h
      next => rfl
    | goesOn h _ ih =>
      obtain ⟨hr, budget, hb⟩ := ih
      refine ⟨hr, budget + 1, ?_⟩
      unfold runBounded
      rw [h]
      exact hb
  · rintro ⟨hr, budget, rfl⟩
    induction budget generalizing m s with
    | zero =>
      have hfinished : m.status = .finished := by
        cases hs : m.status <;> simp [runBounded, isFinished, hs] at hr ⊢
      have hstep : m.step host s = m.runBounded host 0 s := by
        simp [step, runBounded, isFinished, hfinished]
      rw [← hstep] at hr ⊢
      exact .stops hr
    | succ budget ih =>
      unfold runBounded at hr ⊢
      split
      next heq =>
        rw [heq] at hr
        exact .goesOn heq (ih hr)
      next hstep => exact .stops fun h => hstep _ _ (Prod.ext h rfl)

/-- A machine, its host with the trace, the values delivered so far and how the run has ended. -/
structure Driver (σ : Type) where
  machine : Machine
  world : Watched σ
  delivered : List Value
  ended : Option (Except Error Unit)

inductive DriverCall where
  | step
  | run
  | runBounded (budget : Nat)
  | resolve (v : Value)

namespace Driver

def start (program : Program) (s : σ) : Driver σ := ⟨.ofProgram program, ⟨s, []⟩, [], none⟩

/-- What a driver makes of an answer of its machine; the first end that it hears of counts. -/
def hear (d : Driver σ) : Except Error Step × Machine × Watched σ → Driver σ
  | (.ok (.suspend call), machine, world) => { d with machine, world := world.note (.issue call) }
  | (.ok .done, machine, world) => { d with machine, world, ended := d.ended <|> some (.ok ()) }
  | (.error e, machine, world) => { d with machine, world, ended := d.ended <|> some (.error e) }
  | (_, machine, world) => { d with machine, world }

/-- A value that the machine does not wait for is refused. -/
def deliver (d : Driver σ) (v : Value) : Driver σ :=
  match d.machine.resolve? v with
  | some machine => { d with machine, delivered := d.delivered ++ [v] }
  | none => d

/-- What a call makes of a driver. A run that never comes back makes nothing of it. -/
inductive Called (host : Host σ) (d : Driver σ) : DriverCall → Driver σ → Prop where
  | step : Called host d .step (d.hear (d.machine.step host.watched d.world))
  | run {r : Except Error Step × Machine × Watched σ} (h : d.machine.Runs host.watched d.world r) :
      Called host d .run (d.hear r)
  | runBounded (budget : Nat) : Called host d (.runBounded budget)
      (d.hear (d.machine.runBounded host.watched budget d.world))
  | resolve (v : Value) : Called host d (.resolve v) (d.deliver v)

inductive Driven (host : Host σ) : List DriverCall → Driver σ → Driver σ → Prop where
  | nil {d e : Driver σ} (h : d = e) : Driven host [] d e
  | cons {c : DriverCall} {calls : List DriverCall} {d e f : Driver σ} (call : d.Called host c e)
      (driven : Driven host calls e f) : Driven host (c :: calls) d f

theorem Driven.append {host : Host σ} {calls more : List DriverCall} {d e f : Driver σ}
    (h : Driven host calls d e) (hmore : Driven host more e f) :
    Driven host (calls ++ more) d f := by
  induction h with
  | nil h => exact h ▸ hmore
  | cons call _ ih => exact .cons call (ih hmore)

end Driver

end ScopeBlocks.Script
