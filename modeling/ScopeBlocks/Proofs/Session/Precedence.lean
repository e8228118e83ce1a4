import ScopeBlocks.Proofs.Session.UnitCounts
import ScopeBlocks.Session.Queue

/-! The precedence of messages. While a message waits, a scheduler attends to it before any continuation,
whenever that is due, and whatever it attends to has one slice of the run at most. So no script holds a
scheduler up, and a message that ends a run is the end of it once it is the next one. -/
namespace ScopeBlocks

/-- What happens to a scheduler with its messages. Between the things that it attends to, messages are
posted, the awaited call goes on and time passes. -/
inductive QueueEvent where
  | post (m : Message)
  | attend
  | call
  | pass (duration : Nat)

def QueueEvent.message? : QueueEvent → Option Message
  | .post m => some m
  | _ => none

/-- What a message is to the scheduler that attends to it. -/
def Message.event : Message → SchedulerEvent
  | .command c => .occasion (.command c)
  | .shutdown => .close

def Matter.event : Matter → SchedulerEvent
  | .message m => m.event
  | .continuation _ _ => .occasion .timer

namespace SchedulerQueue

variable {σ : Type} (service : Service σ)

def move (q : SchedulerQueue σ) : QueueEvent → SchedulerQueue σ
  | .post m => (q.post m).getD q
  | .attend => q.attend service
  | .call => { q with timeline := q.timeline.meet service .call }
  | .pass duration => { q with timeline := q.timeline.meet service (.pass duration) }

def after (q : SchedulerQueue σ) (events : List QueueEvent) : SchedulerQueue σ :=
  events.foldl (move service) q

/-- What an event is to the scheduler itself. -/
def event? (q : SchedulerQueue σ) : QueueEvent → Option SchedulerEvent
  | .post _ => none
  | .attend => q.matter?.map Matter.event
  | .call => some (.occasion .call)
  | .pass duration => some (.occasion (.pass duration))

def unitsOn (q : SchedulerQueue σ) (e : QueueEvent) : Nat :=
  ((q.event? e).map q.timeline.unitsOn).getD 0

def unitsIn (q : SchedulerQueue σ) : List QueueEvent → Nat
  | [] => 0
  | e :: events => q.unitsOn e + unitsIn (q.move service e) events

def opens (q : SchedulerQueue σ) (e : QueueEvent) : Bool :=
  ((q.event? e).map q.timeline.opens).getD false

def runOn (q : SchedulerQueue σ) (e : QueueEvent) : Session :=
  ((q.event? e).map q.timeline.runOn).getD q.timeline.scheduler.session

variable {q : SchedulerQueue σ} {m : Message} {rest : List Message}

theorem handle_eq_take (t : SchedulerTimeline σ) (m : Message) : handle t m = t.take service m.event := by
  cases m <;> rfl

theorem matter?_of_waiting (hw : q.waiting = m :: rest) (hopen : q.timeline.closed = false) :
    q.matter? = some (.message m) := by
  simp only [matter?, hw, hopen, Bool.false_eq_true, if_false]

theorem matter?_continuation {c : Continuation} {due : Nat}
    (h : q.matter? = some (.continuation c due)) :
    q.waiting = [] ∧ q.timeline.scheduler.next = some (c, due) ∧ due ≤ q.timeline.now := by
  unfold matter? at h
  split at h
  · cases h
  · split at h
    · cases h
    next hw =>
      split at h
      next hn =>
        split at h
        next hdue =>
          cases h
          exact ⟨hw, hn, hdue⟩
        next => cases h
      next => cases h

theorem attend_of_waiting (hw : q.waiting = m :: rest) (hopen : q.timeline.closed = false) :
    q.attend service = ⟨q.timeline.take service m.event, rest⟩ := by
  simp only [attend, matter?_of_waiting hw hopen, hw, handle_eq_take service, List.tail_cons]

theorem attend_of_post {t : SchedulerTimeline σ} (h : (ofTimeline t).post m = some q) :
    q.attend service = ofTimeline (handle t m) := by
  unfold post at h
  split at h
  · cases h
  next hopen =>
    cases h
    rw [handle_eq_take service]
    exact attend_of_waiting service rfl (Bool.eq_false_iff.2 hopen)

theorem move_timeline (q : SchedulerQueue σ) (e : QueueEvent) : (q.move service e).timeline =
    ((q.event? e).map (q.timeline.take service)).getD q.timeline := by
  cases e with
  | post m =>
    simp only [move, post, event?]
    split <;> rfl
  | call | pass => rfl
  | attend =>
    simp only [move, attend, event?]
    cases hmatter : q.matter? with
    | none => rfl
    | some matter =>
      cases matter with
      | message m => exact handle_eq_take service q.timeline m
      | continuation c due =>
        obtain ⟨-, hnext, -⟩ := matter?_continuation hmatter
        simp only [Option.map_some, Option.getD_some, Matter.event, SchedulerTimeline.take,
          SchedulerTimeline.meet, hnext]

variable {settings : Settings}

theorem upright_move (h : q.timeline.Upright settings) (e : QueueEvent) :
    (q.move service e).timeline.Upright settings := by
  rw [move_timeline]
  cases q.event? e with
  | none => exact h
  | some ev => exact h.take service ev

theorem upright_after (h : q.timeline.Upright settings) (events : List QueueEvent) :
    (q.after service events).timeline.Upright settings := by
  induction events generalizing q with
  | nil => exact h
  | cons e events ih => exact ih (upright_move service h e)

theorem move_waiting {e : QueueEvent} (he : e ≠ .attend) (hopen : q.timeline.closed = false) :
    (q.move service e).timeline.closed = false ∧
      (q.move service e).waiting = q.waiting ++ e.message?.toList := by
  cases e with
  | attend => exact absurd rfl he
  | post m =>
    simp only [move, post, hopen, Bool.false_eq_true, if_false, Option.getD_some]
    exact ⟨trivial, rfl⟩
  | call =>
    exact ⟨(q.timeline.meet_closed service .call).trans hopen, (List.append_nil _).symm⟩
  | pass duration => exact ⟨hopen, (List.append_nil _).symm⟩

/-- While nothing is attended to, the messages that wait keep their places. -/
theorem waiting_of_quiet {quiet : List QueueEvent} (hquiet : QueueEvent.attend ∉ quiet)
    (hopen : q.timeline.closed = false) :
    (q.after service quiet).timeline.closed = false ∧
      (q.after service quiet).waiting = q.waiting ++ quiet.filterMap QueueEvent.message? := by
  induction quiet generalizing q with
  | nil => exact ⟨hopen, (List.append_nil _).symm⟩
  | cons e quiet ih =>
    have he : e ≠ .attend := fun he => hquiet (he ▸ List.mem_cons_self)
    have hrest : QueueEvent.attend ∉ quiet := fun h => hquiet (List.mem_cons_of_mem e h)
    obtain ⟨hmoved, hwaiting⟩ := move_waiting (q := q) service he hopen
    obtain ⟨hafter, hposted⟩ := ih hrest hmoved
    refine ⟨hafter, hposted.trans ?_⟩
    rw [hwaiting, List.append_assoc]
    cases hm : e.message? <;> simp [hm]

/-- Nothing more is to be done in the run that was there: it is over, or the next message ends it. -/
def Revoked (q : SchedulerQueue σ) : Prop :=
  q.timeline.scheduler.Vacant ∨ ∃ m rest, q.waiting = m :: rest ∧ m.event.cancels = true

theorem idle_of_opens {e : QueueEvent} (he : q.opens e = true) :
    q.timeline.scheduler.session.isActive = false := by
  unfold opens at he
  cases hev : q.event? e with
  | none => simp [hev] at he
  | some ev =>
    rw [hev] at he
    cases ev with
    | close => cases he
    | occasion o =>
      obtain ⟨c, -, -, -, -, hidle⟩ := SchedulerTimeline.begins_cases he
      exact hidle

theorem move_of_vacant (h : q.timeline.scheduler.Vacant) {e : QueueEvent} (he : q.opens e = false) :
    q.unitsOn e = 0 ∧ (q.move service e).timeline.scheduler.Vacant := by
  rw [move_timeline]
  unfold unitsOn
  unfold opens at he
  cases hev : q.event? e with
  | none => exact ⟨rfl, h⟩
  | some ev =>
    rw [hev] at he
    exact ⟨SchedulerTimeline.unitsOn_of_vacant h he,
      (SchedulerTimeline.idles_of_vacant h he).rests.vacant⟩

/-- Until another run begins, nothing is executed after the end of one. -/
theorem Revoked.move (h : q.Revoked) (hq : q.timeline.Upright settings) {e : QueueEvent}
    (he : q.opens e = false) : q.unitsOn e = 0 ∧ (q.move service e).Revoked := by
  have vacant (hvacant : q.timeline.scheduler.Vacant) :
      q.unitsOn e = 0 ∧ (q.move service e).Revoked :=
    (move_of_vacant service hvacant he).imp_right .inl
  rcases h with hvacant | ⟨m, rest, hw, hcancels⟩
  · exact vacant hvacant
  · cases hclosed : q.timeline.closed with
    | true => exact vacant (hq.closed hclosed).1
    | false =>
      by_cases hattend : e = .attend
      · subst hattend
        have hmatter := matter?_of_waiting hw hclosed
        constructor
        · simp only [unitsOn, event?, hmatter, Option.map_some, Option.getD_some, Matter.event]
          exact SchedulerTimeline.unitsOn_of_cancels hcancels
        · have hmoved : q.move service .attend = ⟨q.timeline.take service m.event, rest⟩ :=
            attend_of_waiting service hw hclosed
          rw [hmoved]
          exact .inl (hq.cancelled service hcancels).1
      · obtain ⟨-, hwaiting⟩ := move_waiting (q := q) service hattend hclosed
        refine ⟨?_, .inr ⟨m, rest ++ e.message?.toList, by rw [hwaiting, hw]; rfl, hcancels⟩⟩
        cases e with
        | attend => exact absurd rfl hattend
        | post | call | pass => rfl

/-- After the end of a run nothing is executed, or what is executed is so after another run has begun. -/
theorem Revoked.later (h : q.Revoked) (hq : q.timeline.Upright settings) (later : List QueueEvent) :
    q.unitsIn service later = 0 ∨ ∃ earlier e rest, later = earlier ++ e :: rest ∧
      q.unitsIn service earlier = 0 ∧
        (q.after service earlier).timeline.scheduler.session.isActive = false ∧
          (q.after service earlier).opens e = true := by
  induction later generalizing q with
  | nil => exact .inl rfl
  | cons e later ih =>
    cases he : q.opens e with
    | true => exact .inr ⟨[], e, later, rfl, rfl, idle_of_opens he, he⟩
    | false =>
      obtain ⟨hnone, hmoved⟩ := h.move service hq he
      rcases ih hmoved (upright_move service hq e) with hlater | ⟨earlier, e', rest, rfl, hearlier, hidle, hopens⟩
      · exact .inl (by rw [unitsIn, hnone, hlater])
      · exact .inr ⟨e :: earlier, e', rest, rfl, by rw [unitsIn, hnone, hearlier], hidle, hopens⟩

/-- What a scheduler with its messages does on any event, whatever has happened before. It executes no more
units than a slice has, and the run that is left accounts for them. A continuation is attended to where no
message waits. Where one does, that is what is attended to next, whatever is posted in the meantime, whatever
the awaited call does and however much time passes; where it ends a run, no unit is executed any more until
another run begins. -/
theorem no_monopoly (service : Service σ) (settings : Settings) (prompter : Prompter) (api : σ)
    (before : List QueueEvent) :
    let q := (ofTimeline (.new settings prompter api)).after service before
    (∀ e, q.unitsOn e ≤ max 1 settings.sliceBudget ∧
      (q.runOn e).Tally (q.unitsOn e) (q.move service e).timeline.scheduler.session) ∧
    (∀ c due, q.matter? = some (.continuation c due) → q.waiting = []) ∧
    ∀ m rest, q.waiting = m :: rest →
      (q.timeline.closed = false → ∀ quiet, QueueEvent.attend ∉ quiet →
        let w := q.after service quiet
        w.matter? = some (.message m) ∧ w.move service .attend =
          ⟨w.timeline.take service m.event, rest ++ quiet.filterMap QueueEvent.message?⟩) ∧
      (m.event.cancels = true → ∀ later,
        q.unitsIn service later = 0 ∨ ∃ earlier e rest, later = earlier ++ e :: rest ∧
          q.unitsIn service earlier = 0 ∧
            (q.after service earlier).timeline.scheduler.session.isActive = false ∧
              (q.after service earlier).opens e = true) := by
  intro q
  have hq : q.timeline.Upright settings :=
    upright_after service (SchedulerTimeline.upright_new settings prompter api) before
  obtain ⟨w, hloaded⟩ := hq.loaded
  refine ⟨fun e => ⟨?_, ?_⟩, fun c due h => (matter?_continuation h).1, fun m rest hw => ⟨?_, ?_⟩⟩
  · cases hev : q.event? e with
    | none => simp [unitsOn, hev]
    | some ev =>
      have hunits := SchedulerTimeline.unitsOn_le hloaded.held.matched ev
      rw [hloaded.sliceBudget, Nat.max_comm] at hunits
      rw [unitsOn, hev]
      exact hunits
  · rw [move_timeline]
    unfold runOn unitsOn
    cases q.event? e with
    | none => exact .refl _
    | some ev => exact SchedulerTimeline.unitsOn_tally service hloaded.held.matched ev
  · intro hopen quiet hquiet
    obtain ⟨hafter, hwaiting⟩ := waiting_of_quiet service hquiet hopen
    rw [hw, List.cons_append] at hwaiting
    exact ⟨matter?_of_waiting hwaiting hafter, attend_of_waiting service hwaiting hafter⟩
  · intro hcancels later
    exact Revoked.later service (.inr ⟨m, rest, hw, hcancels⟩) hq later

/-- A loop without an end that marks nothing on its way. -/
def endless : Workspace :=
  let always := { Block.ofKind "always" "logic_boolean" with fields := .singleton "BOOL" ⟨"TRUE", none⟩ }
  ⟨[], [[{ Block.ofKind "loop" "controls_whileUntil" with
    values := .singleton "BOOL" ⟨some always, none⟩ }]]⟩

/-- The loop has a whole slice whenever it is attended to. It is reset while its next slice is due. -/
theorem endless_reset :
    let settings : Settings := { sliceBudget := 2, runTick := 0 }
    let command (c : Command) : QueueEvent := .post (.command c)
    let before := [command (.edit (.program endless)), .attend, command .run, .attend, .attend]
    let start := ofTimeline (.new settings (.ofAnswers []) Prepared.empty)
    let q := start.after Prepared.service (before ++ [command .reset])
    (q.timeline.scheduler.session.machine.map (·.units) = some 4 ∧
      q.timeline.scheduler.next = some (.run, 0)) ∧
    (q.after Prepared.service [.pass 5]).matter? = some (.message (.command .reset)) ∧
      q.unitsIn Prepared.service [.attend, .attend] = 0 := by
  intro settings command before start q
  obtain ⟨-, -, hwaits⟩ := no_monopoly Prepared.service settings (.ofAnswers []) Prepared.empty
    (before ++ [command .reset])
  have hrunning : (start.after Prepared.service before).timeline.closed = false ∧
      (start.after Prepared.service before).waiting.isEmpty = true ∧
        q.timeline.closed = false ∧ (q.opens .attend = false ∧
          (q.after Prepared.service [.attend]).opens .attend = false) := by decide +kernel
  obtain ⟨hbefore, hempty, hopen, hfirst, hsecond⟩ := hrunning
  have hwaiting : q.waiting = [.command .reset] := by
    have hpost : command .reset ≠ .attend := by rintro ⟨⟩
    obtain ⟨-, hposted⟩ := move_waiting Prepared.service hpost hbefore
    rw [List.isEmpty_iff.1 hempty] at hposted
    have hq : q = (start.after Prepared.service before).move Prepared.service (command .reset) := by
      simp only [q, after, List.foldl_append, List.foldl_cons, List.foldl_nil]
    rw [hq]
    exact hposted
  obtain ⟨hhead, hends⟩ := hwaits (.command .reset) [] hwaiting
  refine ⟨by decide +kernel, (hhead hopen [.pass 5] (by simp)).1, ?_⟩
  rcases hends rfl [.attend, .attend] with hnone | ⟨earlier, e, rest, hsplit, -, -, hopens⟩
  · exact hnone
  · rcases earlier with _ | ⟨x, _ | ⟨y, earlier⟩⟩ <;> simp at hsplit
    · obtain ⟨rfl, -⟩ := hsplit
      exact absurd (hfirst.symm.trans hopens) (by simp)
    · obtain ⟨rfl, rfl, -⟩ := hsplit
      exact absurd (hsecond.symm.trans hopens) (by simp)

end SchedulerQueue

end ScopeBlocks
