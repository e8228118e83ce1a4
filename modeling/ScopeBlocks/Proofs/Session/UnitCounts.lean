import ScopeBlocks.Proofs.Script.Atomicity
import ScopeBlocks.Proofs.Session.Cancellation

/-! How many units of a script are executed when a scheduler takes an event. A unit counts whenever it is
entered: also where it stops to wait for a call, and where it ends in an error. -/
namespace ScopeBlocks

open Script (Machine Step Host Stands settle)

namespace Script.Machine

def stepUnits (m : Machine) : Nat :=
  match m.status, settle m.frames with
  | .ready, _ :: _ => 1
  | _, _ => 0

def boundedUnits {σ : Type} (host : Host σ) : Nat → Machine → σ → Nat
  | 0, _, _ => 0
  | budget + 1, m, s =>
    m.stepUnits +
      match m.step host s with
      | (.ok .continue, m, s) => boundedUnits host budget m s
      | _ => 0

/-- The units that have been entered and not completed. -/
def unfinished : Except Error Step → Nat
  | .ok (.suspend _) | .error _ => 1
  | .ok _ => 0

variable {σ : Type} (host : Host σ)

theorem stepUnits_le (m : Machine) : m.stepUnits ≤ 1 := by
  unfold stepUnits
  split <;> omega

theorem boundedUnits_le (budget : Nat) (m : Machine) (s : σ) :
    m.boundedUnits host budget s ≤ budget := by
  induction budget generalizing m s with
  | zero => exact Nat.le_refl 0
  | succ budget ih =>
    have hstep := m.stepUnits_le
    rw [boundedUnits]
    split
    next m' s' _ =>
      have hrest := ih m' s'
      omega
    next => omega

/-- Every unit that is completed has been entered, and every unit that is entered is completed or is left
with a call or an error. -/
theorem step_units (m : Machine) (s : σ) :
    (m.step host s).2.1.units + unfinished (m.step host s).1 = m.units + m.stepUnits := by
  cases hstatus : m.status with
  | finished =>
    rw [step_of_finished host hstatus, stepUnits, hstatus]
    rfl
  | awaiting call =>
    rw [step_of_awaiting host hstatus, stepUnits, hstatus]
    rfl
  | ready =>
    cases hframes : settle m.frames with
    | nil =>
      rw [step, stepUnits, hstatus, hframes]
      rfl
    | cons frame frames =>
      rw [step_of_ready host hstatus (by rw [hframes]; exact List.cons_ne_nil frame frames),
        stepUnits, hstatus, hframes]
      split
      next position tape _ => cases (m.advance position).isFinished <;> rfl
      next => rfl
      next => rfl

theorem runBounded_units (budget : Nat) (m : Machine) (s : σ) :
    (m.runBounded host budget s).2.1.units + unfinished (m.runBounded host budget s).1 =
      m.units + m.boundedUnits host budget s := by
  induction budget generalizing m s with
  | zero =>
    rw [runBounded, boundedUnits]
    cases m.isFinished <;> rfl
  | succ budget ih =>
    have hstep := m.step_units host s
    rw [runBounded, boundedUnits]
    rcases hr : m.step host s with ⟨step, m', s'⟩
    rw [hr] at hstep
    rcases step with e | (_ | _ | _ | _)
    case ok.continue =>
      -- a step after which the machine goes on leaves no unit unfinished
      have hrest := ih m' s'
      have hcompleted : m'.units = m.units + m.stepUnits := hstep
      dsimp only
      omega
    all_goals exact hstep

end Script.Machine

namespace Session

def units (s : Session) (count : Machine → Console → Nat) : Nat :=
  match s.settle with
  | (none, t) =>
    match t.machine with
    | none => 0
    | some m => count m t.console
  | (some _, _) => 0

def tickUnits (s : Session) : Nat := s.units fun m _ => m.stepUnits

def sliceUnits (s : Session) : Nat := s.units (·.boundedUnits Console.host s.sliceBudget ·)

def stepUnits (now : Nat) : Nat → Session → Nat
  | 0, _ => 0
  | units + 1, s =>
    match s.tick now with
    | (.advanced, t) => s.tickUnits + if t.isPaused then 0 else stepUnits now units t
    | _ => s.tickUnits

/-- How the completed units of a run account for the units that have been executed: all of them are
completed, or the last one waits for its call. -/
def Tally (s : Session) (n : Nat) (t : Session) : Prop :=
  ∀ m', t.machine = some m' → ∃ m, s.machine = some m ∧
    (m'.units = m.units + n ∨ m'.isSuspended = true ∧ m'.units + 1 = m.units + n)

variable {s t u : Session} {n k now : Nat}

theorem Tally.refl (s : Session) : s.Tally 0 s := fun m hm => ⟨m, hm, .inl rfl⟩

theorem Tally.trans (h : s.Tally n t) (free : ∀ m, t.machine = some m → m.isSuspended = false)
    (rest : t.Tally k u) : s.Tally (n + k) u := by
  intro m'' hm''
  obtain ⟨m', hm', hrest⟩ := rest m'' hm''
  obtain ⟨m, hm, hcount⟩ := h m' hm'
  have hcompleted : m'.units = m.units + n := by
    rcases hcount with hcompleted | ⟨hsuspended, -⟩
    · exact hcompleted
    · rw [free m' hm'] at hsuspended
      cases hsuspended
  refine ⟨m, hm, hrest.imp (fun h => ?_) fun h => ⟨h.1, ?_⟩⟩ <;> omega

theorem Settles.units {t : Session} (h : s.Settles (none, t)) {m : Machine} (hm : t.machine = some m) :
    ∃ m₀, s.machine = some m₀ ∧ m.units = m₀.units := by
  cases h with
  | idle => exact ⟨m, hm, rfl⟩
  | resumed hp he hm₀ =>
    cases hm
    exact ⟨_, hm₀, rfl⟩

theorem Matched.settled_free (h : s.Matched) (hs : s.Settles (none, t)) {m : Machine}
    (hm : t.machine = some m) : m.isSuspended = false := by
  cases hs with
  | idle hp => exact h.free hp hm
  | resumed =>
    cases hm
    rfl

theorem units_of_settled {count : Machine → Console → Nat} {m : Machine}
    (hs : s.settle = (none, t)) (hm : t.machine = some m) : s.units count = count m t.console := by
  simp only [units, hs, hm]

theorem units_le (s : Session) {count : Machine → Console → Nat} {bound : Nat}
    (h : ∀ m c, count m c ≤ bound) : s.units count ≤ bound := by
  unfold units
  split
  · split
    · exact Nat.zero_le bound
    · exact h _ _
  · exact Nat.zero_le bound

theorem tickUnits_le (s : Session) : s.tickUnits ≤ 1 := s.units_le fun m _ => m.stepUnits_le

theorem sliceUnits_le (s : Session) : s.sliceUnits ≤ s.sliceBudget :=
  s.units_le fun m c => m.boundedUnits_le Console.host s.sliceBudget c

theorem stepUnits_le (now budget : Nat) (s : Session) : s.stepUnits now budget ≤ budget := by
  induction budget generalizing s with
  | zero => exact Nat.le_refl 0
  | succ budget ih =>
    have htick := s.tickUnits_le
    rw [stepUnits]
    split
    next t _ =>
      have hrest := ih t
      split <;> omega
    next => omega

section

variable {run : Machine → Console → Except Script.Error Step × Machine × Console}
  {after : Session → Session} {count : Machine → Console → Nat}

variable (now) in
theorem afterStep_machine {m m' : Machine} (hm : s.machine = some m) {step : Except Script.Error Step}
    (hm' : (s.afterStep now step).2.machine = some m') :
    m' = m ∧ ∀ e, step ≠ .error e := by
  cases step with
  | error => cases hm'
  | ok step =>
    have hsame : m' = m := by
      cases step with
      | done => cases hm'
      | «continue» | suspend | pending => exact Option.some.inj (hm'.symm.trans hm)
    exact ⟨hsame, by rintro _ ⟨⟩⟩

/-- The units of the run that is left when a session has gone on. -/
theorem goOn_tally (hd : Drives run after) (h : s.Matched)
    (counts : ∀ m c, (run m c).2.1.units + Machine.unfinished (run m c).1 = m.units + count m c) :
    s.Tally (s.units count) (s.goOn now run after).2 := by
  have hsettles := settle_settles h
  intro m' hm'
  rcases hs : s.settle with ⟨_ | progress, t⟩
  all_goals rw [hs] at hsettles
  case some =>
    simp only [goOn, hs] at hm'
    rcases hsettles.stays with rfl | ⟨hgone, -⟩
    · exact ⟨m', hm', .inl (by simp only [units, hs, Nat.add_zero])⟩
    · rw [hgone] at hm'
      cases hm'
  case none =>
    cases hm : t.machine with
    | none =>
      simp only [goOn, hs, hm] at hm'
      cases hm'
    | some m =>
      obtain ⟨m₀, hm₀, hsame⟩ := hsettles.units hm
      have hstands := hd.stands m t.console (h.settled_free hsettles hm)
      have hcounts := counts m t.console
      rw [goOn_of_settled hs hm] at hm'
      obtain ⟨rfl, hok⟩ := afterStep_machine now (hd.driven_machine _) hm'
      refine ⟨m₀, hm₀, ?_⟩
      rw [units_of_settled hs hm, ← hsame]
      cases hstep : (run m t.console).1 with
      | error e => exact absurd hstep (hok e)
      | ok step =>
        rw [hstep] at hstands hcounts
        cases step with
        | suspend call => exact .inr ⟨Machine.isSuspended_of_awaiting hstands, hcounts⟩
        | «continue» | pending | done => exact .inl hcounts

theorem goOn_advanced (hd : Drives run after) (h : s.Matched)
    (advanced : (s.goOn now run after).1 = .advanced) : (s.goOn now run after).2.pending = none := by
  have hgoes := goOn_goesOn run after now h
  generalize s.goOn now run after = r, s.called? run = call at hgoes advanced
  cases hgoes with
  | stays hs => cases hs <;> cases advanced
  | idle => cases advanced
  | @runs t m hs hm hp free =>
    generalize hr : run m t.console = r at advanced
    obtain ⟨e | (_ | _ | _ | _), m', c⟩ := r
    all_goals cases advanced
    exact (hd.driven_pending _).trans hp

theorem tick_tally (h : s.Matched) (now : Nat) : s.Tally s.tickUnits (s.tick now).2 :=
  goOn_tally drives_tick h fun m c => m.step_units Console.host c

theorem runSlice_tally (h : s.Matched) (now : Nat) : s.Tally s.sliceUnits (s.runSlice now).2 :=
  goOn_tally (drives_runSlice _) h fun m c => m.runBounded_units Console.host s.sliceBudget c

end

end Session

namespace Scheduler

def handleUnits (s : Scheduler) (now : Nat) : Command → Nat
  | .edit _ | .reset => 0
  | .step =>
    if s.controls then
      match s.start now with
      | (true, s) => s.session.clearPause.stepUnits now s.session.sliceBudget
      | (false, _) => 0
    else 0
  | .run =>
    if s.controls then
      match s.start now with
      | (true, s) => s.session.sliceUnits
      | (false, _) => 0
    else 0

def resumeUnits (s : Scheduler) (now : Nat) : Continuation → Nat
  | .step => s.session.stepUnits now s.session.sliceBudget
  | .run => s.session.sliceUnits
  | .cooldown => 0

variable {s : Scheduler} (now : Nat)

theorem resumeUnits_le (s : Scheduler) (c : Continuation) :
    s.resumeUnits now c ≤ s.session.sliceBudget := by
  cases c with
  | step => exact Session.stepUnits_le now _ _
  | run => exact s.session.sliceUnits_le
  | cooldown => exact Nat.zero_le _

theorem handleUnits_le (h : s.session.Matched) (c : Command) :
    s.handleUnits now c ≤ s.session.sliceBudget := by
  have hload := Session.start_load h
  rw [← s.start_session now] at hload
  have hbudget : (s.start now).2.session.sliceBudget = s.session.sliceBudget := congrArg (·.1) hload
  cases c with
  | edit | reset => exact Nat.zero_le _
  | step | run =>
    rw [handleUnits, ← hbudget]
    split
    · split
      next t ht =>
        rw [ht]
        first
        | exact Session.stepUnits_le now _ _
        | exact t.session.sliceUnits_le
      next => exact Nat.zero_le _
    · exact Nat.zero_le _

theorem advanceStep_tally (units : Nat) (h : s.session.Matched) :
    s.session.Tally (s.session.stepUnits now units) (advanceStep now units s).session := by
  induction units generalizing s with
  | zero => exact .refl _
  | succ units ih =>
    have htick := Session.tick_tally h now
    have hmatched := Session.operate_matched h (.tick now)
    have hfree : (s.session.tick now).1 = .advanced → (s.session.tick now).2.pending = none :=
      Session.goOn_advanced Session.drives_tick h
    rw [Session.operate] at hmatched
    simp only [advanceStep, Session.stepUnits]
    rcases ht : s.session.tick now with ⟨_ | _ | _, session⟩
    all_goals
      simp only [ht] at htick hmatched hfree ⊢
    · split
      · exact htick
      · exact htick.trans (fun m hm => hmatched.free (hfree trivial) hm)
          (ih (s := { s with session }) hmatched)
    · exact htick
    · exact htick

theorem advanceRun_tally (h : s.session.Matched) :
    s.session.Tally s.session.sliceUnits (s.advanceRun now).session := by
  have hslice := Session.runSlice_tally h now
  rw [advanceRun]
  rcases ht : s.session.runSlice now with ⟨_ | _ | _, session⟩
  all_goals
    simp only [ht] at hslice ⊢
    exact hslice

theorem resume_tally (h : s.session.Matched) (c : Continuation) :
    s.session.Tally (s.resumeUnits now c) (s.resume now c).session := by
  cases c with
  | step => exact advanceStep_tally (s := { s with next := none }) now _ h
  | run => exact advanceRun_tally (s := { s with next := none }) now h
  | cooldown => exact .refl _

theorem handle_tally (h : s.session.Matched) (hc : s.controls = true) {c : Command}
    (hcommand : c = .step ∨ c = .run) :
    s.session.start.2.Tally (s.handleUnits now c) (s.handle now c).session := by
  have hmatched := Session.operate_matched h .start
  rw [Session.operate, ← s.start_session now] at hmatched
  rw [← s.start_session now]
  rcases hcommand with rfl | rfl
  all_goals
    simp only [handle, handleUnits, hc, if_true]
    rcases hstart : s.start now with ⟨_ | _, t⟩
    all_goals simp only [hstart] at hmatched ⊢
  · exact .refl _
  · exact advanceStep_tally
      (s := { t with session := t.session.clearPause, mode := .stepping }) now _ hmatched
  · exact .refl _
  · exact advanceRun_tally (s := { t with mode := .running }) now hmatched

end Scheduler

namespace SchedulerTimeline

variable {σ : Type} {service : Service σ} {settings : Settings} {t : SchedulerTimeline σ}

def unitsOn (t : SchedulerTimeline σ) : SchedulerEvent → Nat
  | .occasion (.command c) => if t.closed then 0 else t.scheduler.handleUnits t.now c
  | .occasion .timer =>
    match t.scheduler.next with
    | none => 0
    | some (c, due) => t.scheduler.resumeUnits (max t.now due) c
  | .occasion .call | .occasion (.pass _) | .close => 0

def runOn (t : SchedulerTimeline σ) (e : SchedulerEvent) : Session :=
  if t.opens e then t.scheduler.session.start.2 else t.scheduler.session

theorem unitsOn_le (h : t.scheduler.session.Matched) (e : SchedulerEvent) :
    t.unitsOn e ≤ t.scheduler.session.sliceBudget := by
  unfold unitsOn
  split
  next c =>
    split
    · exact Nat.zero_le _
    · exact Scheduler.handleUnits_le t.now h c
  · split
    · exact Nat.zero_le _
    next c due _ => exact t.scheduler.resumeUnits_le _ c
  all_goals exact Nat.zero_le _

theorem runOn_of_controls (hclosed : t.closed = false) (hc : t.scheduler.controls = true) {c : Command}
    (hcommand : c = .step ∨ c = .run) :
    t.runOn (.occasion (.command c)) = t.scheduler.session.start.2 := by
  have hopens : t.opens (.occasion (.command c)) = !t.scheduler.session.isActive := by
    rcases hcommand with rfl | rfl <;> simp only [opens, begins, hclosed, hc] <;> rfl
  rw [runOn, hopens]
  cases hactive : t.scheduler.session.isActive with
  | true => simp only [Session.start, hactive, if_true]; rfl
  | false => rfl

theorem handle_unitsOn (h : t.scheduler.session.Matched) (hclosed : t.closed = false) (c : Command) :
    (t.runOn (.occasion (.command c))).Tally (t.scheduler.handleUnits t.now c)
      (t.scheduler.handle t.now c).session := by
  have hclear : ∀ {s : Session}, s.machine = none →
      (t.runOn (.occasion (.command c))).Tally 0 s := by
    intro s hs m hm
    rw [hs] at hm
    cases hm
  cases c with
  | edit change =>
    cases change with
    | view => exact .refl _
    | program w => exact hclear rfl
  | reset => exact hclear rfl
  | step | run =>
    by_cases hc : t.scheduler.controls = true
    · rw [runOn_of_controls hclosed hc (by simp)]
      exact Scheduler.handle_tally t.now h hc (by simp)
    · simp only [runOn, opens, begins, Scheduler.handle, Scheduler.handleUnits, hc, Bool.and_false,
        Bool.false_and, Bool.false_eq_true, if_false]
      exact .refl _

variable (service) in
/-- The run that is left by an event has completed the units that have been executed, but for one that
waits for its call. -/
theorem unitsOn_tally (h : t.scheduler.session.Matched) (e : SchedulerEvent) :
    (t.runOn e).Tally (t.unitsOn e) (t.take service e).scheduler.session := by
  cases e with
  | close =>
    cases hclosed : t.closed with
    | true =>
      have hsame : t.take service .close = t := by
        simp only [take, shutdown, hclosed, if_true, Option.getD_none]
      rw [hsame]
      exact .refl _
    | false =>
      simp only [take, shutdown, hclosed, Bool.false_eq_true, if_false, Option.getD_some]
      exact fun m hm => by cases hm
  | occasion o =>
    cases o with
    | command c =>
      cases hclosed : t.closed with
      | true =>
        have hopens : t.opens (.occasion (.command c)) = false := by
          cases c <;> simp [opens, begins, hclosed]
        rw [take_of_closed hclosed, unitsOn, hclosed, runOn, hopens]
        exact .refl _
      | false =>
        rw [take_of_open hclosed, unitsOn, hclosed]
        exact handle_unitsOn h hclosed c
    | timer =>
      cases hn : t.scheduler.next with
      | none =>
        simp only [take, meet, unitsOn, hn]
        exact .refl _
      | some next =>
        simp only [take, meet, unitsOn, hn]
        exact Scheduler.resume_tally _ h next.1
    | call =>
      cases hp : t.scheduler.session.pending with
      | none =>
        simp only [take, meet, happen, hp]
        exact .refl _
      | some p =>
        simp only [take, meet, happen, hp]
        exact fun m hm => ⟨m, hm, .inl rfl⟩
    | pass duration => exact .refl _

theorem unitsOn_of_cancels {e : SchedulerEvent} (he : e.cancels = true) : t.unitsOn e = 0 := by
  cases e with
  | close => rfl
  | occasion o =>
    cases o with
    | timer | call | pass => cases he
    | command c =>
      cases c with
      | step | run => cases he
      | edit | reset => exact ite_self 0

theorem unitsOn_of_vacant (h : t.scheduler.Vacant) {e : SchedulerEvent} (he : t.opens e = false) :
    t.unitsOn e = 0 := by
  cases e with
  | close => rfl
  | occasion o =>
    cases o with
    | call | pass => rfl
    | timer =>
      cases hn : t.scheduler.next with
      | none => simp only [unitsOn, hn]
      | some next =>
        obtain ⟨c, due⟩ := next
        obtain rfl := h.next c due hn
        simp only [unitsOn, hn, Scheduler.resumeUnits]
    | command c =>
      cases c with
      | edit | reset => exact ite_self 0
      | step | run =>
        have hidle : t.scheduler.session.isActive = false := by simp [Session.isActive, h.machine]
        cases hclosed : t.closed with
        | true => simp only [unitsOn, hclosed, if_true]
        | false =>
          have hoff : t.scheduler.controls = false := by simpa [opens, begins, hclosed, hidle] using he
          simp only [unitsOn, Scheduler.handleUnits, hclosed, hoff, Bool.false_eq_true, if_false]

end SchedulerTimeline

end ScopeBlocks
