import ScopeBlocks.Session.Timeline

/-! A scheduler with the messages that wait for it. It attends to one thing at a time: to the oldest
message where there is one, and to its continuation only where there is none, once that is due. After a
shutdown it attends to nothing, and nothing can be posted any more. -/
namespace ScopeBlocks

inductive Message where
  | command (c : Command)
  | shutdown
  deriving Repr

/-- What a scheduler attends to next. -/
inductive Matter where
  | message (m : Message)
  | continuation (c : Continuation) (due : Nat)
  deriving Repr

/-- A scheduler at a time with its messages, the oldest first. -/
structure SchedulerQueue (σ : Type) where
  timeline : SchedulerTimeline σ
  waiting : List Message

namespace SchedulerQueue

variable {σ : Type}

def ofTimeline (t : SchedulerTimeline σ) : SchedulerQueue σ := ⟨t, []⟩

def post (q : SchedulerQueue σ) (m : Message) : Option (SchedulerQueue σ) :=
  if q.timeline.closed then none else some { q with waiting := q.waiting ++ [m] }

def matter? (q : SchedulerQueue σ) : Option Matter :=
  if q.timeline.closed then none
  else
    match q.waiting with
    | m :: _ => some (.message m)
    | [] =>
      match q.timeline.scheduler.next with
      | some (c, due) => if due ≤ q.timeline.now then some (.continuation c due) else none
      | none => none

def handle (t : SchedulerTimeline σ) : Message → SchedulerTimeline σ
  | .command c => (t.send c).getD t
  | .shutdown => t.shutdown.getD t

def attend (service : Service σ) (q : SchedulerQueue σ) : SchedulerQueue σ :=
  match q.matter? with
  | some (.message m) => ⟨handle q.timeline m, q.waiting.tail⟩
  | some (.continuation c due) =>
    { q with timeline := q.timeline.happen service (.continuation c) due }
  | none => q

/-- Whether attending to what is next shows a snapshot. -/
def shows (q : SchedulerQueue σ) : Bool :=
  match q.matter? with
  | none | some (.message .shutdown) => false
  | _ => true

end SchedulerQueue

end ScopeBlocks
