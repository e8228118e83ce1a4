import ScopeBlocks.Proofs.Script.Standing
import ScopeBlocks.Session.Basic

/-! The call that a session waits for is the call that its machine waits for. Every operation keeps this,
so the result of a call is always taken by the machine that made it. -/
namespace ScopeBlocks

open Script (Machine Step AsyncCall Stands)

/-- What is done with a session; a run goes on at a time. -/
inductive Operation where
  | apply (change : Change)
  | start
  | tick (now : Nat)
  | runSlice (now : Nat)
  | reset
  | clearPause
  deriving Repr

namespace Session

def operate (s : Session) : Operation → Session
  | .apply change => s.apply change
  | .start => s.start.2
  | .tick now => (s.tick now).2
  | .runSlice now => (s.runSlice now).2
  | .reset => s.reset
  | .clearPause => s.clearPause

/-- A call is outstanding just where the machine waits for it; its result has not been handed out. -/
def Matched (s : Session) : Prop :=
  match s.pending with
  | none => ∀ m ∈ s.machine, m.isSuspended = false
  | some p => p.delivered = false ∧ ∃ m ∈ s.machine, m.status = .awaiting p.call

variable {s : Session}

theorem matched_of_idle (hm : s.machine = none) (hp : s.pending = none) : s.Matched := by
  simp [Matched, hm, hp]

theorem matched_of_free {m : Machine} (hm : s.machine = some m) (hp : s.pending = none)
    (h : m.isSuspended = false) : s.Matched := by
  simpa [Matched, hm, hp] using h

theorem matched_of_awaited {m : Machine} {p : PendingCall} (hm : s.machine = some m)
    (hp : s.pending = some p) (h : m.status = .awaiting p.call) (hd : p.delivered = false) :
    s.Matched := by
  unfold Matched
  rw [hp]
  exact ⟨hd, m, hm, h⟩

theorem Matched.free (h : s.Matched) (hp : s.pending = none) {m : Machine} (hm : s.machine = some m) :
    m.isSuspended = false := by
  unfold Matched at h
  rw [hp] at h
  exact h m hm

theorem Matched.awaited (h : s.Matched) {p : PendingCall} (hp : s.pending = some p) :
    p.delivered = false ∧ ∃ m, s.machine = some m ∧ m.status = .awaiting p.call := by
  unfold Matched at h
  rw [hp] at h
  exact h

theorem Matched.isSome_iff (h : s.Matched) :
    s.pending.isSome = true ↔ ∃ m, s.machine = some m ∧ m.isSuspended = true := by
  constructor
  · intro hs
    obtain ⟨p, hp⟩ := Option.isSome_iff_exists.1 hs
    obtain ⟨-, m, hm, hstatus⟩ := h.awaited hp
    exact ⟨m, hm, Machine.isSuspended_of_awaiting hstatus⟩
  · rintro ⟨m, hm, hsuspended⟩
    cases hp : s.pending with
    | none =>
      rw [h.free hp hm] at hsuspended
      cases hsuspended
    | some p => rfl

/-- What settling comes to: there is nothing to settle, the call goes on, the machine takes the result,
or the run is given up. -/
inductive Settles (s : Session) : Option Progress × Session → Prop
  | idle (hp : s.pending = none) : Settles s (none, s)
  | waiting {p : PendingCall} (hp : s.pending = some p) (he : p.take.1 = none) :
      Settles s (some .waiting, s)
  | resumed {p : PendingCall} {m : Machine} (hp : s.pending = some p) (he : p.take.1.isSome = true)
      (hm : s.machine = some m) (hstatus : m.status = .awaiting p.call) (v : Script.Value)
      (failures : Nat) (lines : List String) : Settles s (none, { s with
        pending := none
        machine := some { m with recorded := m.recorded ++ [v], status := .ready }
        failedActions := failures
        console.transcript := lines })
  | ended {p : PendingCall} (hp : s.pending = some p) (he : p.take.1.isSome = true) (failures : Nat)
      (lines : List String) (outcome : Outcome) : Settles s (some .finished, finish { s with
        pending := none
        failedActions := failures
        console.transcript := lines } outcome)

theorem deliver_of_awaiting {m : Machine} {call : AsyncCall} (hm : s.machine = some m)
    (h : m.status = .awaiting call) (v : Script.Value) : s.deliver v =
      (none, { s with machine := some { m with recorded := m.recorded ++ [v], status := .ready } }) := by
  unfold deliver
  rw [hm]
  dsimp only
  rw [Machine.resolve?_of_awaiting h]

theorem settle_settles (h : s.Matched) : s.Settles s.settle := by
  cases hp : s.pending with
  | none =>
    unfold settle
    rw [hp]
    exact .idle hp
  | some p =>
    obtain ⟨hd, m, hm, hstatus⟩ := h.awaited hp
    unfold settle
    rw [hp]
    dsimp only
    cases hr : p.errand.result? with
    | none =>
      have htake : p.take = (none, p) := by simp [PendingCall.take, hr]
      rw [htake]
      have hsame : { s with pending := some p } = s := by
        rw [← hp]
      dsimp only
      rw [hsame]
      exact .waiting hp (by rw [htake])
    | some r =>
      have htake : p.take = (some (.ofResult r), { p with delivered := true }) := by
        simp [PendingCall.take, hr, hd]
      have hdone : p.take.1.isSome = true := by simp [htake]
      rw [htake]
      cases Resolution.ofResult r with
      | completed v =>
        dsimp only
        rw [deliver_of_awaiting (s := { s with pending := none }) hm hstatus]
        exact .resumed hp hdone hm hstatus v s.failedActions s.console.transcript
      | failed message =>
        dsimp only
        unfold deliverFailure
        dsimp only
        split
        · exact .ended hp hdone _ _ _
        · rw [deliver_of_awaiting (m := m) ?_ hstatus]
          · exact .resumed hp hdone hm hstatus _ _ _
          · exact hm

/-! Going on: settling, and then a drive of the machine. -/

/-- A drive of a machine, which then stands as the outcome says. -/
structure Drives (run : Machine → Console → Except Script.Error Step × Machine × Console)
    (after : Session → Session) : Prop where
  stands : ∀ m c, m.isSuspended = false → Stands (run m c).2.1 (run m c).1
  machine : ∀ s, (after s).machine = s.machine
  pending : ∀ s, (after s).pending = s.pending
  bridge : ∀ s, (after s).bridge = s.bridge

theorem drives_tick : Drives (·.step Console.host ·) id where
  stands _ c h := Machine.step_stands _ h c
  machine _ := rfl
  pending _ := rfl
  bridge _ := rfl

theorem drives_runSlice (budget : Nat) :
    Drives (·.runBounded Console.host budget ·) clearPause where
  stands _ c h := Machine.runBounded_stands _ budget h c
  machine _ := rfl
  pending _ := rfl
  bridge _ := rfl

def driven (s : Session) (after : Session → Session) (r : Except Script.Error Step × Machine × Console) :
    Session :=
  after { s with machine := some r.2.1, console := r.2.2 }

variable {run : Machine → Console → Except Script.Error Step × Machine × Console}
  {after : Session → Session} {now : Nat}

namespace Drives

variable (hd : Drives run after) (r : Except Script.Error Step × Machine × Console)

include hd

theorem driven_machine : (s.driven after r).machine = some r.2.1 := hd.machine _

theorem driven_pending : (s.driven after r).pending = s.pending := hd.pending _

theorem driven_bridge : (s.driven after r).bridge = s.bridge := hd.bridge _

end Drives

def callOf? : Except Script.Error Step → Option AsyncCall
  | .ok (.suspend call) => some call
  | _ => none

def called? (s : Session) (run : Machine → Console → Except Script.Error Step × Machine × Console) :
    Option AsyncCall :=
  match s.settle with
  | (none, t) => t.machine.bind fun m => callOf? (run m t.console).1
  | (some _, _) => none

/-- What going on comes to, and the call that is made: the run stays where it is, there is none, or its
machine is driven. -/
inductive GoesOn (s : Session) (now : Nat)
    (run : Machine → Console → Except Script.Error Step × Machine × Console)
    (after : Session → Session) : Progress × Session → Option AsyncCall → Prop
  | stays {progress : Progress} {t : Session} (h : s.Settles (some progress, t)) :
      GoesOn s now run after (progress, t) none
  | idle (hm : s.machine = none) (hp : s.pending = none) : GoesOn s now run after (.finished, s) none
  | runs {t : Session} {m : Machine} (h : s.Settles (none, t)) (hm : t.machine = some m)
      (hp : t.pending = none) (free : m.isSuspended = false) : GoesOn s now run after
        ((t.driven after (run m t.console)).afterStep now (run m t.console).1)
        (callOf? (run m t.console).1)

variable (run after now) in
theorem goOn_goesOn (h : s.Matched) :
    s.GoesOn now run after (s.goOn now run after) (s.called? run) := by
  have hsettles := settle_settles h
  unfold goOn called?
  generalize s.settle = r at hsettles
  cases hsettles with
  | idle hp =>
    dsimp only
    cases hm : s.machine with
    | none => exact .idle hm hp
    | some m => exact .runs (.idle hp) hm hp (h.free hp hm)
  | waiting hp he => exact .stays (.waiting hp he)
  | resumed hp he hm hstatus v failures lines =>
    exact .runs (.resumed hp he hm hstatus v failures lines) rfl rfl
      (Machine.not_isSuspended_of_ready rfl)
  | ended hp he failures lines outcome => exact .stays (.ended hp he failures lines outcome)

variable (now) in
theorem afterStep_pending {m : Machine} (hp : s.pending = none) {step : Except Script.Error Step}
    (h : Stands m step) :
    (s.afterStep now step).2.pending = (callOf? step).map fun call => .spawn s.bridge call now := by
  cases step with
  | error => rfl
  | ok step =>
    cases step with
    | «continue» => exact hp
    | suspend => rfl
    | pending => cases h
    | done => rfl

variable (now) in
theorem afterStep_matched {m : Machine} (hm : s.machine = some m) (hp : s.pending = none)
    {step : Except Script.Error Step} (h : Stands m step) : (s.afterStep now step).2.Matched := by
  cases step with
  | error => exact matched_of_idle rfl rfl
  | ok step =>
    cases step with
    | «continue» => exact matched_of_free hm hp (Machine.not_isSuspended_of_ready h)
    | suspend => exact matched_of_awaited hm rfl h rfl
    | pending => cases h
    | done => exact matched_of_idle rfl rfl

theorem afterStep_bridge (step : Except Script.Error Step) :
    (s.afterStep now step).2.bridge = s.bridge := by
  cases step with
  | error => rfl
  | ok step => cases step <;> rfl

theorem Settles.bridge {r : Option Progress × Session} (h : s.Settles r) : r.2.bridge = s.bridge := by
  cases h <;> rfl

theorem Settles.stays {progress : Progress} {t : Session} (h : s.Settles (some progress, t)) :
    t = s ∨ t.machine = none ∧ t.pending = none := by
  cases h with
  | waiting => exact .inl rfl
  | ended => exact .inr ⟨rfl, rfl⟩

theorem goOn_matched (hd : Drives run after) (h : s.Matched) : (s.goOn now run after).2.Matched := by
  have hgoes := goOn_goesOn run after now h
  generalize s.goOn now run after = r, s.called? run = call at hgoes
  cases hgoes with
  | stays hs =>
    rcases hs.stays with rfl | ⟨hm, hp⟩
    · exact h
    · exact matched_of_idle hm hp
  | idle hm hp => exact matched_of_idle hm hp
  | @runs t m _ hm hp free =>
    exact afterStep_matched now (hd.driven_machine _) ((hd.driven_pending _).trans hp)
      (hd.stands m t.console free)

theorem goOn_bridge (hd : Drives run after) (h : s.Matched) :
    (s.goOn now run after).2.bridge = s.bridge := by
  have hgoes := goOn_goesOn run after now h
  generalize s.goOn now run after = r, s.called? run = call at hgoes
  cases hgoes with
  | stays hs => exact hs.bridge
  | idle => rfl
  | runs hs hm hp free => exact (afterStep_bridge _).trans ((hd.driven_bridge _).trans hs.bridge)

/-! All operations. -/

theorem start_cases (h : s.Matched) : s.isActive = true ∧ s.start = (true, s) ∨
    s.isActive = false ∧ s.pending = none ∧ s.start.2.bridge = s.bridge ∧
      s.start.2.pending = none ∧ ∀ m ∈ s.start.2.machine, m.status = .ready := by
  cases hm : s.machine with
  | some m =>
    have hactive : s.isActive = true := by simp [isActive, hm]
    exact .inl ⟨hactive, by simp [start, hactive]⟩
  | none =>
    have hactive : s.isActive = false := by simp [isActive, hm]
    have hp : s.pending = none := by
      cases hp : s.pending with
      | none => rfl
      | some p =>
        obtain ⟨-, m, hm', -⟩ := h.awaited hp
        rw [hm] at hm'
        cases hm'
    refine .inr ⟨hactive, hp, ?_⟩
    unfold start
    rw [hactive]
    simp only [Bool.false_eq_true, if_false]
    split
    · exact ⟨rfl, hp, by rintro m hm; cases hm; rfl⟩
    · exact ⟨rfl, rfl, by rintro m hm; cases hm⟩

theorem operate_matched (h : s.Matched) (o : Operation) : (s.operate o).Matched := by
  cases o with
  | apply change =>
    cases change with
    | view => exact h
    | program w => exact matched_of_idle rfl rfl
  | start =>
    unfold operate
    dsimp only
    rcases start_cases h with ⟨-, hs⟩ | ⟨-, -, -, hp, hready⟩
    · rw [hs]
      exact h
    · cases hm : s.start.2.machine with
      | none => exact matched_of_idle hm hp
      | some m => exact matched_of_free hm hp (Machine.not_isSuspended_of_ready (hready m hm))
  | tick now => exact goOn_matched drives_tick h
  | runSlice now => exact goOn_matched (drives_runSlice _) h
  | reset => exact matched_of_idle rfl rfl
  | clearPause => exact h

theorem operate_bridge (h : s.Matched) (o : Operation) : (s.operate o).bridge = s.bridge := by
  cases o with
  | apply change => cases change <;> rfl
  | start =>
    unfold operate
    dsimp only
    rcases start_cases h with ⟨-, hs⟩ | ⟨-, -, hb, -⟩
    · rw [hs]
    · exact hb
  | tick now => exact goOn_bridge drives_tick h
  | runSlice now => exact goOn_bridge (drives_runSlice _) h
  | reset => rfl
  | clearPause => rfl

end Session

end ScopeBlocks
