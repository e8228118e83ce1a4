import ScopeBlocks.Session.Scheduler

/-! Sessions and schedulers in time. The clock counts milliseconds and moves only between the things that
happen, each of which happens at the millisecond it is due; what a call does comes before a continuation
that is due with it. -/
namespace ScopeBlocks

variable {σ : Type}

/-- More steps than any stretch of time holds that comes to an end. -/
def Timeline.patience : Nat := 1000000000000

/-- A session at a time, with the state of the service that its calls go to. -/
structure SessionTimeline (σ : Type) where
  now : Nat
  api : σ
  session : Session

namespace SessionTimeline

def sleep (service : Service σ) (duration : Nat) (t : SessionTimeline σ) : SessionTimeline σ :=
  let (session, api) := t.session.sleep service t.now duration t.api
  ⟨t.now + duration, api, session⟩

def tick (t : SessionTimeline σ) : Progress × SessionTimeline σ :=
  let (p, session) := t.session.tick t.now
  (p, { t with session })

def runSlice (t : SessionTimeline σ) : Progress × SessionTimeline σ :=
  let (p, session) := t.session.runSlice t.now
  (p, { t with session })

def finishWithin (service : Service σ) (pause : Nat) :
    Nat → SessionTimeline σ → Progress × SessionTimeline σ
  | 0, t => t.runSlice
  | n + 1, t =>
    match t.runSlice with
    | (.finished, t) => (.finished, t)
    | (_, t) => finishWithin service pause n (t.sleep service pause)

/-- Slices of the run, with a pause between them, until it is over. -/
def finish (service : Service σ) (pause : Nat) (t : SessionTimeline σ) :
    Progress × SessionTimeline σ :=
  finishWithin service pause Timeline.patience t

end SessionTimeline

/-- A scheduler at a time, with the snapshot that it published last. A closed one does nothing more. -/
structure SchedulerTimeline (σ : Type) where
  now : Nat
  api : σ
  scheduler : Scheduler
  published : Snapshot
  closed : Bool

namespace SchedulerTimeline

def new (settings : Settings) (prompter : Prompter) (api : σ) : SchedulerTimeline σ :=
  let scheduler := Scheduler.new settings prompter
  ⟨0, api, scheduler, scheduler.snapshot, false⟩

def publish (t : SchedulerTimeline σ) (scheduler : Scheduler) : SchedulerTimeline σ :=
  { t with scheduler, published := scheduler.snapshot }

/-- A command is handled when it is sent; none is taken by a closed scheduler. -/
def send (t : SchedulerTimeline σ) (c : Command) : Option (SchedulerTimeline σ) :=
  if t.closed then none else some (t.publish (t.scheduler.handle t.now c))

/-- Closes the scheduler, which discards its run and shows nothing more. -/
def shutdown (t : SchedulerTimeline σ) : Option (SchedulerTimeline σ) :=
  if t.closed then none
  else some { t with
    closed := true
    scheduler := { t.scheduler with session := t.scheduler.session.reset, next := none } }

/-- What happens next: something that the awaited call does, or a continuation. -/
inductive Happening where
  | call
  | continuation (c : Continuation)
  deriving DecidableEq, Repr

def callDue? (t : SchedulerTimeline σ) : Option Nat :=
  t.scheduler.session.pending.bind fun p =>
    if p.errand.isSettled then none else some p.errand.due

def next? (t : SchedulerTimeline σ) : Option (Happening × Nat) :=
  match t.callDue?, t.scheduler.next with
  | none, none => none
  | some d, none => some (.call, d)
  | none, some (c, d) => some (.continuation c, d)
  | some d, some (c, d') => some (if d ≤ d' then (.call, d) else (.continuation c, d'))

def happen (service : Service σ) (t : SchedulerTimeline σ) (h : Happening) (time : Nat) :
    SchedulerTimeline σ :=
  let t := { t with now := max t.now time }
  match h with
  | .call =>
    let s := t.scheduler
    match s.session.pending with
    | none => t
    | some p =>
      let (errand, api) := s.session.bridge.fire service p.errand t.api
      { t with api, scheduler := { s with session := { s.session with pending := some { p with errand } } } }
  | .continuation c => t.publish (t.scheduler.resume t.now c)

def reachWithin (service : Service σ) (time : Nat) (goal : Snapshot → Bool) :
    Nat → SchedulerTimeline σ → Bool × SchedulerTimeline σ
  | 0, t => (false, t)
  | n + 1, t =>
    if goal t.published then (true, t)
    else
      match t.next? with
      | some (h, due) =>
        if due ≤ time then reachWithin service time goal n (t.happen service h due)
        else (false, { t with now := time })
      | none => (false, { t with now := time })

/-- Lets time pass until a published snapshot fits or the given time has come; whether one fits. -/
def reach (service : Service σ) (time : Nat) (goal : Snapshot → Bool) (t : SchedulerTimeline σ) :
    Bool × SchedulerTimeline σ :=
  reachWithin service time goal Timeline.patience t

def sleep (service : Service σ) (duration : Nat) (t : SchedulerTimeline σ) : SchedulerTimeline σ :=
  (t.reach service (t.now + duration) fun _ => false).2

end SchedulerTimeline

end ScopeBlocks
