import ScopeBlocks.Proofs.Script.Followed
import ScopeBlocks.Proofs.Script.Indexed.Runs

/-! Units are done as a whole or not at all. A unit that is completed counts as one and changes or adds one variable
at most; one that waits or fails has changed nothing but what the host has been told. A machine that an error has
ended does nothing more. -/
namespace ScopeBlocks.Script

/-- Whether a store is another one but for one variable at most, which has been changed or added. -/
def Store.Touched (store store' : Store) : Prop := store' = store ∨ ∃ x v, store' = store.define x v

/-! Units. -/

section

variable {store : Store}

theorem Assignment.touches (a : Assignment) :
    (a.dialogue store).Yields store.Touched fun _ => True := by
  have hwrite (v : Value) : (Dialogue.ofFault (store.assign a.name v)).Yields store.Touched fun _ => True := by
    refine .ofFault (fun changed h => ?_) fun _ _ => trivial
    unfold Store.assign at h
    split at h
    · cases h
      exact .inr ⟨a.name, v, rfl⟩
    · cases h
  unfold dialogue
  cases a.op <;>
    exact .bind (yields_any _) fun _ _ => .bind (yields_any _) fun _ _ => .bind (yields_any _) fun v _ => hwrite v

theorem Binding.touches (b : Binding) : (b.dialogue store).Yields store.Touched fun _ => True := by
  cases b with
  | declare x init =>
    cases init with
    | none => exact .pure (.inr ⟨x, .null, rfl⟩)
    | some e => exact .bind (yields_any _) fun v _ => .pure (.inr ⟨x, v, rfl⟩)
  | assign a => exact a.touches

theorem Loop.touches (l : Loop) (phase : LoopPhase) (frames : List Frame) :
    (l.dialogue store phase frames).Yields (fun p => store.Touched p.2) fun _ => True := by
  have htest : Dialogue.Yields (fun p : Position => store.Touched p.2) (fun _ => True) (do
      if ← l.testDialogue store then return (.block l.body :: .loop l .update :: frames, store)
      else return (frames, store)) := by
    refine .bind (yields_any _) fun goesOn _ => ?_
    cases goesOn <;> exact .pure (.inl rfl)
  unfold Loop.dialogue
  split
  next b _ => exact Dialogue.Yields.bind b.touches fun changed h => .pure h
  next a _ => exact Dialogue.Yields.bind a.touches fun changed h => .pure h
  next => exact htest

theorem Statement.touches (s : Statement) (frames : List Frame) :
    (s.dialogue store frames).Yields (fun p => store.Touched p.2) fun _ => True := by
  cases s with
  | bind b => exact .bind b.touches fun changed h => .pure h
  | eval e => exact .bind (yields_any _) fun _ _ => .pure (.inl rfl)
  | branch branches otherwise =>
    refine .bind (yields_any _) fun chosen _ => ?_
    cases chosen <;> exact .pure (.inl rfl)
  | whileLoop cond body => exact Loop.touches ⟨none, some cond, none, body⟩ .test frames
  | forLoop init cond update body => exact Loop.touches ⟨init, cond, update, body⟩ .init frames
  | exitLoop =>
    rw [Statement.dialogue]
    cases afterLoop? frames with
    | none => trivial
    | some outer => exact .pure (.inl rfl)
  | nextRound =>
    rw [Statement.dialogue]
    cases fromLoop? frames with
    | none => trivial
    | some round => exact .pure (.inl rfl)

/-- A unit touches one variable at most. -/
theorem unit_touches (frames : List Frame) :
    (unitDialogue store frames).Yields (fun p => store.Touched p.2) fun _ => True := by
  unfold unitDialogue
  split
  next s rest frames => exact s.touches _
  next l phase frames => exact l.touches phase frames
  next => exact .pure (.inl rfl)

end

/-! Machines. -/

namespace Machine

variable {σ : Type} {host : Host σ} {m m' : Machine} {program : Program}

/-- Whether a machine has the variables and the count of units of another one. -/
def Keeps (m m' : Machine) : Prop := m'.store = m.store ∧ m'.units = m.units

/-- Whether a machine has done one unit more than another one. -/
def DoesUnit (m m' : Machine) : Prop := m.store.Touched m'.store ∧ m'.units = m.units + 1

/-- A machine that has ended does nothing more: whatever its host is, that is not called either. -/
structure Inert (m : Machine) : Prop where
  step : ∀ {σ : Type} (host : Host σ) (s : σ), m.step host s = (.ok .done, m, s)
  run : ∀ {σ : Type} (host : Host σ) (s : σ) r, m.Runs host s r ↔ r = (.ok .done, m, s)
  runBounded : ∀ {σ : Type} (host : Host σ) (s : σ) budget, m.runBounded host budget s = (.ok .done, m, s)
  resolve : ∀ v, m.resolve? v = none

theorem step_of_finished (host : Host σ) (h : m.status = .finished) (s : σ) :
    m.step host s = (.ok .done, m, s) := by
  rw [step, h]

theorem step_of_awaiting (host : Host σ) {call : AsyncCall} (h : m.status = .awaiting call) (s : σ) :
    m.step host s = (.ok .pending, m, s) := by
  rw [step, h]

theorem inert_of_finished (h : m.status = .finished) : m.Inert where
  step host s := step_of_finished host h s
  run host s r := by
    refine ⟨fun hruns => ?_, fun hr => ?_⟩
    · cases hruns with
      | stops => exact step_of_finished host h s
      | goesOn hstep =>
        rw [step_of_finished host h s] at hstep
        cases hstep
    · have hstops : m.Runs host s (m.step host s) := .stops (by rw [step_of_finished host h s]; rintro ⟨⟩)
      rwa [step_of_finished host h s, ← hr] at hstops
  runBounded host s budget := by
    cases budget with
    | zero => simp [Machine.runBounded, isFinished, h]
    | succ budget => rw [Machine.runBounded, step_of_finished host h s]
  resolve v := by rw [resolve?, h]

/-- What a step makes of a machine, by what it tells the driver. -/
inductive Stepped (m m' : Machine) : Except Error Step → Prop
  | failed {e : Error} (keeps : m.Keeps m') (inert : m'.Inert) : Stepped m m' (.error e)
  | suspended {call : AsyncCall} (keeps : m.Keeps m') (waits : m'.status = .awaiting call) :
      Stepped m m' (.ok (.suspend call))
  | goesOn (unit : m.DoesUnit m') (ready : m'.status = .ready) : Stepped m m' (.ok .continue)
  | ended (unit : m.DoesUnit m') (inert : m'.Inert) : Stepped m m' (.ok .done)
  /-- A machine with no unit left to do ends. -/
  | nothing (none : settle m.frames = []) (keeps : m.Keeps m') (inert : m'.Inert) :
      Stepped m m' (.ok .done)
  | still (ended : m.status = .finished) (same : m' = m) : Stepped m m' (.ok .done)
  | waiting {call : AsyncCall} (waits : m.status = .awaiting call) (same : m' = m) :
      Stepped m m' (.ok .pending)

theorem stepped_advance {position : Position} (h : m.store.Touched position.2) :
    m.Stepped (m.advance position) (.ok (if (m.advance position).isFinished then .done else .continue)) := by
  have hunit : m.DoesUnit (m.advance position) := ⟨h, rfl⟩
  have hstands := m.advance_stands position
  cases hended : (m.advance position).isFinished with
  | true =>
    rw [hended] at hstands
    exact .ended hunit (inert_of_finished hstands)
  | false =>
    rw [hended] at hstands
    exact .goesOn hunit hstands

theorem stepped (m : Machine) (host : Host σ) (s : σ) :
    m.Stepped (m.step host s).2.1 (m.step host s).1 := by
  cases hstatus : m.status with
  | finished =>
    rw [step_of_finished host hstatus]
    exact .still hstatus rfl
  | awaiting call =>
    rw [step_of_awaiting host hstatus]
    exact .waiting hstatus rfl
  | ready =>
    by_cases hframes : settle m.frames = []
    · have hstep : m.step host s = (.ok .done, { m with frames := [], status := .finished }, s) := by
        rw [step, hstatus, hframes]
      rw [hstep]
      exact .nothing hframes ⟨rfl, rfl⟩ (inert_of_finished rfl)
    · have htouches : m.unit.Yields (fun p => m.store.Touched p.2) fun _ => True := unit_touches _
      have hunit := htouches.replay host (fun _ _ => trivial) ⟨.ofEntries m.recorded, s⟩
      rw [step_of_ready host hstatus hframes]
      split
      next position tape hr =>
        rw [hr] at hunit
        exact stepped_advance hunit
      next call tape hr => exact .suspended ⟨rfl, rfl⟩ rfl
      next e tape hr => exact .failed ⟨rfl, rfl⟩ (inert_of_finished rfl)

/-! Machines that a driver may bring about, and whole runs. -/

theorem Reached.begun (h : Reached program m) :
    m.status = .finished ∨ settle m.frames ≠ [] ∨ m = .ofProgram [] := by
  induction h with
  | start =>
    cases program with
    | nil => exact .inr (.inr rfl)
    | cons first rest => exact .inr (.inl (List.cons_ne_nil _ _))
  | @step _ m host s _ ih =>
    cases hstatus : m.status with
    | finished =>
      rw [step_of_finished host hstatus]
      exact ih
    | awaiting call =>
      rw [step_of_awaiting host hstatus]
      exact ih
    | ready =>
      by_cases hframes : settle m.frames = []
      · rw [Machine.step, hstatus, hframes]
        exact .inl rfl
      · rw [step_of_ready host hstatus hframes]
        split
        next position tape _ =>
          by_cases hleft : settle position.1 = []
          · exact .inl (by simp [advance, hleft])
          · exact .inr (.inl (by rwa [advance, settle_settle]))
        next => exact .inr (.inl (by rwa [settle_settle]))
        next => exact .inl rfl
  | @resolve v m m' _ hresolved ih =>
    unfold resolve? at hresolved
    split at hresolved
    next call hstatus =>
      cases hresolved
      obtain hfinished | hframes | hempty := ih
      · rw [hstatus] at hfinished
        cases hfinished
      · exact .inr (.inl hframes)
      · rw [hempty] at hstatus
        cases hstatus
    next => cases hresolved

/-- Whether a machine has done a number of units more than another one, one after another. -/
inductive Does : Nat → Machine → Machine → Prop
  | none {m m' : Machine} (keeps : m.Keeps m') : Does 0 m m'
  | unit {n : Nat} {m m' m'' : Machine} (unit : m.DoesUnit m') (rest : Does n m' m'') : Does (n + 1) m m''

/-- How a step or a run has gone: a number of units have been done, and an error has ended the machine. -/
def Went (n : Nat) (m : Machine) (r : Except Error Step × Machine × σ) : Prop :=
  Does n m r.2.1 ∧ ∀ e, r.1 = .error e → r.2.1.Inert

theorem Stepped.went {r : Except Error Step × Machine × σ} (h : m.Stepped r.2.1 r.1) :
    ∃ n ≤ 1, m.Went n r := by
  obtain ⟨answer, m', s⟩ := r
  cases h with
  | failed keeps inert => exact ⟨0, by omega, .none keeps, fun _ _ => inert⟩
  | suspended keeps waits => exact ⟨0, by omega, .none keeps, by rintro _ ⟨⟩⟩
  | goesOn unit ready => exact ⟨1, le_refl _, .unit unit (.none ⟨rfl, rfl⟩), by rintro _ ⟨⟩⟩
  | ended unit inert => exact ⟨1, le_refl _, .unit unit (.none ⟨rfl, rfl⟩), by rintro _ ⟨⟩⟩
  | nothing none keeps inert => exact ⟨0, by omega, .none keeps, by rintro _ ⟨⟩⟩
  | still ended same => exact ⟨0, by omega, .none (same ▸ ⟨rfl, rfl⟩), by rintro _ ⟨⟩⟩
  | waiting waits same => exact ⟨0, by omega, .none (same ▸ ⟨rfl, rfl⟩), by rintro _ ⟨⟩⟩

theorem runBounded_went (host : Host σ) (budget : Nat) (m : Machine) (s : σ) :
    ∃ n ≤ budget, m.Went n (m.runBounded host budget s) := by
  induction budget generalizing m s with
  | zero => exact ⟨0, le_refl _, .none ⟨rfl, rfl⟩, by rintro _ ⟨⟩⟩
  | succ budget ih =>
    have hstepped := m.stepped host s
    rw [runBounded]
    split
    next m' s' hstep =>
      rw [hstep] at hstepped
      obtain ⟨n, hn, hdoes, hended⟩ := ih m' s'
      cases hstepped with
      | goesOn unit ready => exact ⟨n + 1, by omega, .unit unit hdoes, hended⟩
    next =>
      obtain ⟨n, hn, hwent⟩ := hstepped.went
      exact ⟨n, by omega, hwent⟩

/-- Whatever a driver has done before, a step does one unit as a whole or leaves the variables and the count of
units alone, and so a run does a number of whole units. A machine that waits or has ended is left as it is by
steps, and one that does not wait by answers. -/
theorem units_atomic (h : Reached program m) (host : Host σ) (s : σ) :
    m.Stepped (m.step host s).2.1 (m.step host s).1 ∧
      (m.status = .ready → settle m.frames = [] → m = .ofProgram []) ∧
      (m.status ≠ .ready → (m.step host s).2 = (m, s)) ∧
      (m.isSuspended = false → ∀ v, m.resolve? v = none) ∧
      (∀ budget, ∃ n ≤ budget, m.Went n (m.runBounded host budget s)) ∧
      ∀ r, m.Runs host s r → ∃ n, m.Went n r := by
  refine ⟨m.stepped host s, fun hready hframes => ?_, fun hready => ?_, fun hwaits v => ?_,
    fun budget => runBounded_went host budget m s, fun r hr => ?_⟩
  · obtain hfinished | hbegun | hempty := h.begun
    · rw [hready] at hfinished
      cases hfinished
    · exact absurd hframes hbegun
    · exact hempty
  · cases hstatus : m.status with
    | ready => exact absurd hstatus hready
    | awaiting call => rw [step_of_awaiting host hstatus]
    | finished => rw [step_of_finished host hstatus]
  · cases hstatus : m.status with
    | awaiting call =>
      rw [isSuspended_of_awaiting hstatus] at hwaits
      cases hwaits
    | ready | finished => rw [resolve?, hstatus]
  · obtain ⟨-, budget, rfl⟩ := runs_iff.1 hr
    obtain ⟨n, -, hwent⟩ := runBounded_went host budget m s
    exact ⟨n, hwent⟩

/-- The first round of the loop changes a variable that is not declared. -/
theorem countdown_atomic : ∃ e, let host : Host Unit := ⟨fun _ s => s, fun _ _ s => (none, s), fun _ s => s⟩
    let m := ((Machine.ofProgram countdown).step host ()).2.1
    (m.step host ()).1 = .error e ∧ m.Keeps (m.step host ()).2.1 ∧ (m.step host ()).2.1.Inert := by
  refine ⟨.fault (.undeclared "iffy"), ?_⟩
  intro host m
  have hstart : Reached countdown (.ofProgram countdown) := .start
  obtain ⟨hstepped, -⟩ := units_atomic (hstart.step host ()) host ()
  have hfails : (m.step host ()).1 = .error (.fault (.undeclared "iffy")) := rfl
  rw [show (((Machine.ofProgram countdown).step host ()).2.1.step host ()).1 = _ from hfails] at hstepped
  cases hstepped with
  | failed keeps inert => exact ⟨hfails, keeps, inert⟩

end Machine

end ScopeBlocks.Script
