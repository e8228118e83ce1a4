import Mathlib.Data.List.Induction
import ScopeBlocks.Proofs.Session.Loaded
import ScopeBlocks.Proofs.Session.OneAtATime
import ScopeBlocks.Proofs.Session.Pace

/-! The end of a run that is cancelled. A reset, a new program and the end of the scheduler leave nothing
of the run behind, so that nothing of it happens later; what does happen later belongs to a run that begins
later, at the first unit of the program that is loaded then. -/
namespace ScopeBlocks

def Workspace.script? (w : Workspace) : Option Script.Program :=
  w.compile.toOption.bind fun c => (Script.parse c.code).toOption

namespace Session

variable {settings : Settings} {s : Session} {w : Workspace}

theorem Loaded.program_toOption (h : s.Loaded settings w) : s.program.toOption = w.script? := by
  unfold program Workspace.script?
  rw [h.compiled]
  cases w.compile with
  | error e => rfl
  | ok c =>
    show (Except.mapError _ (Script.parse c.code)).toOption = (Script.parse c.code).toOption
    cases Script.parse c.code <;> rfl

theorem Loaded.start_machine (h : s.Loaded settings w) (hi : s.isActive = false) :
    s.start.2.machine = w.script?.map .ofProgram ∧ s.start.2.pending = none ∧
      s.start.2.console.highlight = .none ∧
        (s.start.2.isActive = true → s.start.2.console.transcript = []) := by
  rw [start_of_idle hi, ← h.program_toOption]
  cases s.program with
  | ok program => exact ⟨rfl, h.held.pending_none hi, rfl, fun _ => rfl⟩
  | error message => exact ⟨rfl, rfl, rfl, nofun⟩

end Session

/-- Nothing of a run is left. Only the rest after a run that is over may still come to its end. -/
structure Scheduler.Vacant (s : Scheduler) : Prop where
  machine : s.session.machine = none
  pending : s.session.pending = none
  highlight : s.session.console.highlight = .none
  next : ∀ c due, s.next = some (c, due) → c = .cooldown

namespace Scheduler

variable {s s' : Scheduler} (now : Nat)

/-- A scheduler without a run comes to another one, its transcript kept or cleared. -/
structure Rests (s : Scheduler) (cleared : Bool) (s' : Scheduler) : Prop where
  vacant : s'.Vacant
  transcript : s'.session.console.transcript =
    if cleared then [] else s.session.console.transcript
  prompter : s'.session.console.prompter = s.session.console.prompter

theorem Vacant.rests (h : s.Vacant) : s.Rests false s := ⟨h, rfl, rfl⟩

theorem cancel_next (s : Scheduler) (c : Continuation) (due : Nat)
    (h : s.cancel.next = some (c, due)) : c = .cooldown := by
  unfold cancel at h
  split at h
  next hn =>
    rw [hn] at h
    cases h
    rfl
  next => cases h

theorem handle_reset (s : Scheduler) : s.Rests false (s.handle now .reset) := by
  have hsession := s.cancel_session
  refine ⟨⟨rfl, rfl, rfl, s.cancel_next⟩, ?_, ?_⟩
  all_goals simp only [handle, hsession, Session.reset, Bool.false_eq_true, if_false]

theorem handle_program (s : Scheduler) (w : Workspace) :
    s.Rests true (s.handle now (.edit (.program w))) := by
  have hsession := s.cancel_session
  refine ⟨⟨rfl, rfl, rfl, s.cancel_next⟩, rfl, ?_⟩
  simp only [handle, hsession, Session.apply, Session.reset]

end Scheduler

/-- An occasion, or the end of the scheduler. -/
inductive SchedulerEvent where
  | occasion (o : Occasion)
  | close

namespace SchedulerEvent

def cancels : SchedulerEvent → Bool
  | .occasion o => !o.keepsRun
  | .close => true

def loads : SchedulerEvent → Bool
  | .occasion (.command (.edit (.program _))) => true
  | _ => false

end SchedulerEvent

namespace SchedulerTimeline

variable {σ : Type} (service : Service σ)

def take (t : SchedulerTimeline σ) : SchedulerEvent → SchedulerTimeline σ
  | .occasion o => t.meet service o
  | .close => t.shutdown.getD t

/-- A new scheduler after some events, in the order in which they come. -/
def afterEvents (settings : Settings) (prompter : Prompter) (api : σ) (events : List SchedulerEvent) :
    SchedulerTimeline σ :=
  events.foldl (take service) (new settings prompter api)

def opens (t : SchedulerTimeline σ) : SchedulerEvent → Bool
  | .occasion o => t.begins o
  | .close => false

def markedOn (t : SchedulerTimeline σ) : SchedulerEvent → List String
  | .occasion o => t.marked o
  | .close => []

def exchangedOn (t : SchedulerTimeline σ) : SchedulerEvent → List Exchange
  | .occasion o => t.exchanged service o
  | .close => []

def resumed? (t : SchedulerTimeline σ) : SchedulerEvent → Option Continuation
  | .occasion .timer => t.scheduler.next.map (·.1)
  | _ => none

/-- Nothing is done in a run on an event: no unit and no mark, no line and no question, no request to
the service. No result is there to be taken over, and no continuation takes a run on. -/
structure Idles (t : SchedulerTimeline σ) (e : SchedulerEvent) : Prop where
  rests : t.scheduler.Rests (e.loads && !t.closed) (t.take service e).scheduler
  marks : t.markedOn e = []
  exchanges : t.exchangedOn service e = []
  api : (t.take service e).api = t.api
  taken : t.scheduler.session.taken? = none
  resumed : ∀ c, t.resumed? e = some c → c = .cooldown

variable {service} {settings : Settings} {t u : SchedulerTimeline σ}

theorem take_of_closed (h : t.closed = true) (c : Command) :
    t.take service (.occasion (.command c)) = t := by
  simp only [take, meet, send, h, if_true, Option.getD_none]

theorem take_of_open (h : t.closed = false) (c : Command) :
    t.take service (.occasion (.command c)) = t.publish (t.scheduler.handle t.now c) := by
  simp only [take, meet, send, h, Bool.false_eq_true, if_false, Option.getD_some]

theorem handle_rests (h : t.scheduler.Vacant) (hclosed : t.closed = false) {c : Command}
    (hc : t.begins (.command c) = false) :
    t.scheduler.Rests (SchedulerEvent.loads (.occasion (.command c))) (t.scheduler.handle t.now c) ∧
      t.scheduler.handleMarks t.now c = [] := by
  cases c with
  | edit change =>
    cases change with
    | view => exact ⟨h.rests, rfl⟩
    | program w => exact ⟨t.scheduler.handle_program t.now w, rfl⟩
  | reset => exact ⟨t.scheduler.handle_reset t.now, rfl⟩
  | step | run =>
    have hi : t.scheduler.session.isActive = false := by simp [Session.isActive, h.machine]
    have hoff : t.scheduler.controls = false := by simpa [begins, hclosed, hi] using hc
    simp only [Scheduler.handle, Scheduler.handleMarks, hoff, Bool.false_eq_true, if_false]
    exact ⟨h.rests, trivial⟩

theorem taken?_of_vacant (h : t.scheduler.Vacant) : t.scheduler.session.taken? = none := by
  simp [Session.taken?, h.pending]

theorem idles_close (h : t.scheduler.Vacant) : t.Idles service .close := by
  refine ⟨?_, rfl, rfl, ?_, taken?_of_vacant h, by rintro _ ⟨⟩⟩
  all_goals
    unfold take shutdown
    cases t.closed
  · exact ⟨⟨rfl, rfl, rfl, by rintro _ _ ⟨⟩⟩, rfl, rfl⟩
  · exact h.rests
  · rfl
  · rfl

theorem idles_command (h : t.scheduler.Vacant) {c : Command} (hc : t.begins (.command c) = false) :
    t.Idles service (.occasion (.command c)) := by
  cases hclosed : t.closed with
  | true =>
    refine ⟨?_, by simp only [markedOn, marked, hclosed, if_true], rfl, ?_, taken?_of_vacant h,
      by rintro _ ⟨⟩⟩
    all_goals rw [take_of_closed hclosed]
    rw [hclosed, Bool.not_true, Bool.and_false]
    exact h.rests
  | false =>
    obtain ⟨hrests, hmarks⟩ := handle_rests h hclosed hc
    refine ⟨?_, ?_, rfl, ?_, taken?_of_vacant h, by rintro _ ⟨⟩⟩
    · rw [take_of_open hclosed, hclosed, Bool.not_false, Bool.and_true]
      exact hrests
    · simpa only [markedOn, marked, hclosed, Bool.false_eq_true, if_false] using hmarks
    · rw [take_of_open hclosed]
      rfl

theorem idles_timer (h : t.scheduler.Vacant) : t.Idles service (.occasion .timer) := by
  cases hn : t.scheduler.next with
  | none =>
    refine ⟨?_, by simp only [markedOn, marked, hn], rfl, ?_, taken?_of_vacant h, by simp [resumed?, hn]⟩
    all_goals simp only [take, meet, hn]
    exact h.rests
  | some next =>
    obtain ⟨c, due⟩ := next
    obtain rfl := h.next c due hn
    refine ⟨?_, by simp only [markedOn, marked, hn]; rfl, rfl, ?_, taken?_of_vacant h,
      by simp [resumed?, hn]⟩
    all_goals simp only [take, meet, hn]
    · exact ⟨⟨h.machine, h.pending, h.highlight, by rintro _ _ ⟨⟩⟩, rfl, rfl⟩
    · rfl

theorem idles_call (h : t.scheduler.Vacant) : t.Idles service (.occasion .call) := by
  refine ⟨?_, rfl, ?_, ?_, taken?_of_vacant h, by rintro _ ⟨⟩⟩
  · simp only [take, meet, happen, h.pending]
    exact h.rests
  · simp only [exchangedOn, exchanged, h.pending]
  · simp only [take, meet, happen, h.pending]

/-- What a scheduler without a run does on an event that begins none. -/
theorem idles_of_vacant (h : t.scheduler.Vacant) {e : SchedulerEvent} (he : t.opens e = false) :
    t.Idles service e := by
  cases e with
  | close => exact idles_close h
  | occasion o =>
    cases o with
    | command c => exact idles_command h he
    | timer => exact idles_timer h
    | call => exact idles_call h
    | pass duration => exact ⟨h.rests, rfl, rfl, rfl, taken?_of_vacant h, by rintro _ ⟨⟩⟩

/-- What holds of a scheduler at any time. Once it is closed nothing is left of a run. -/
structure Upright (settings : Settings) (t : SchedulerTimeline σ) : Prop where
  loaded : ∃ w, t.scheduler.session.Loaded settings w
  opened : t.closed = false → t.Sound
  closed : t.closed = true → t.scheduler.Vacant ∧ t.scheduler.next = none

theorem upright_new (settings : Settings) (prompter : Prompter) (api : σ) :
    (new settings prompter api).Upright settings where
  loaded := ⟨_, Session.loaded_new settings prompter⟩
  opened _ := ⟨Scheduler.sound_new settings prompter, (Scheduler.sound_new settings prompter).paused⟩
  closed := nofun

variable (service) in
theorem Upright.take (h : t.Upright settings) (e : SchedulerEvent) :
    (t.take service e).Upright settings := by
  obtain ⟨⟨w, hw⟩, hopened, hshut⟩ := h
  cases e with
  | close =>
    unfold SchedulerTimeline.take shutdown
    cases hclosed : t.closed with
    | true => exact ⟨⟨w, hw⟩, hopened, hshut⟩
    | false =>
      exact ⟨⟨w, Session.operate_loaded hw .reset⟩, nofun, fun _ => ⟨⟨rfl, rfl, rfl, nofun⟩, rfl⟩⟩
  | occasion o =>
    refine ⟨meet_loaded ⟨w, hw⟩ o, fun hopen => ?_, fun hclosed => ?_⟩
    · exact meet_sound (hopened (t.meet_closed service o ▸ hopen)) o
    · have hbefore : t.closed = true := t.meet_closed service o ▸ hclosed
      obtain ⟨hvacant, hnext⟩ := hshut hbefore
      cases o with
      | command c =>
        rw [take_of_closed hbefore]
        exact ⟨hvacant, hnext⟩
      | timer =>
        have hsame : t.take service (.occasion .timer) = t := by
          simp only [SchedulerTimeline.take, meet, hnext]
        rw [hsame]
        exact ⟨hvacant, hnext⟩
      | call =>
        simp only [SchedulerTimeline.take, meet, happen, hvacant.pending]
        exact ⟨hvacant, hnext⟩
      | pass duration => exact ⟨hvacant, hnext⟩

variable (service) in
theorem Upright.foldl (h : t.Upright settings) (events : List SchedulerEvent) :
    (events.foldl (SchedulerTimeline.take service) t).Upright settings := by
  induction events generalizing t with
  | nil => exact h
  | cons e events ih => exact ih (h.take service e)

theorem Upright.next_of_active (h : t.Upright settings)
    (hi : t.scheduler.session.isActive = true) {c : Continuation} {due : Nat}
    (hn : t.scheduler.next = some (c, due)) : c ≠ .cooldown := by
  rintro rfl
  cases hclosed : t.closed with
  | true => simp [(h.closed hclosed).2] at hn
  | false =>
    have hsound := (h.opened hclosed).scheduler
    have hrow := hsound.row
    rw [hsound.mode_of_next hn] at hrow
    rw [hrow.2.2] at hi
    cases hi

variable (service) in
/-- Whatever a run was doing, an event that cancels it leaves nothing of it. -/
theorem Upright.cancelled (h : t.Upright settings) {e : SchedulerEvent} (he : e.cancels = true) :
    (t.take service e).scheduler.Vacant ∧
      (t.scheduler.session.isActive = true → (t.take service e).scheduler.next = none) := by
  cases hclosed : t.closed with
  | true =>
    have hvacant := (h.closed hclosed).1
    have hsame : t.take service e = t := by
      cases e with
      | close => simp only [SchedulerTimeline.take, shutdown, hclosed, if_true, Option.getD_none]
      | occasion o =>
        cases o with
        | command c => exact take_of_closed hclosed c
        | timer | call | pass => cases he
    rw [hsame]
    exact ⟨hvacant, by simp [Session.isActive, hvacant.machine]⟩
  | false =>
    have hcancel (hi : t.scheduler.session.isActive = true) : t.scheduler.cancel.next = none := by
      unfold Scheduler.cancel
      split
      next hn => exact absurd rfl (h.next_of_active hi hn)
      next => rfl
    cases e with
    | close =>
      simp only [SchedulerTimeline.take, shutdown, hclosed, Bool.false_eq_true, if_false,
        Option.getD_some]
      exact ⟨⟨rfl, rfl, rfl, by rintro _ _ ⟨⟩⟩, fun _ => trivial⟩
    | occasion o =>
      cases o with
      | timer | call | pass => cases he
      | command c =>
        rw [take_of_open hclosed]
        cases c with
        | step | run => cases he
        | reset => exact ⟨(t.scheduler.handle_reset t.now).vacant, hcancel⟩
        | edit change =>
          cases change with
          | view => cases he
          | program w => exact ⟨(t.scheduler.handle_program t.now w).vacant, hcancel⟩

/-- Later on a scheduler without a run has none still, or is in one that has begun later. -/
theorem Upright.later (h : u.Upright settings) (hv : u.scheduler.Vacant) (later : List SchedulerEvent) :
    let v := later.foldl (SchedulerTimeline.take service) u
    v.scheduler.Vacant ∨ ∃ earlier o rest, later = earlier ++ .occasion o :: rest ∧
      let b := earlier.foldl (SchedulerTimeline.take service) u
      b.begins o = true ∧ ∃ marks exchanges, b.Runs service marks exchanges v := by
  -- the induction goes over the events from the last one back: a run is followed to where it is now
  induction later using List.reverseRecOn with
  | nil => exact .inl hv
  | append_singleton later e ih =>
    simp only [List.foldl_append, List.foldl_cons, List.foldl_nil]
    generalize hw : later.foldl (SchedulerTimeline.take service) u = w at ih ⊢
    have hupright : w.Upright settings := hw ▸ h.foldl service later
    cases hcancels : e.cancels with
    | true => exact .inl (hupright.cancelled service hcancels).1
    | false =>
      obtain ⟨o, rfl⟩ : ∃ o, e = .occasion o := by
        cases e with
        | occasion o => exact ⟨o, rfl⟩
        | close => cases hcancels
      cases hbegins : w.begins o with
      | true =>
        exact .inr ⟨later, o, [], rfl, by rwa [hw], _, _, by rw [hw]; exact .begun hbegins⟩
      | false =>
        rcases ih with hvacant | ⟨earlier, o', rest, rfl, hbegun, marks, exchanges, hruns⟩
        · have hidles : w.Idles service (.occasion o) := idles_of_vacant hvacant hbegins
          exact .inl hidles.rests.vacant
        · refine .inr ⟨earlier, o', rest ++ [.occasion o], by simp, hbegun, _, _,
            hruns.goesOn (o := o) ?_ hbegins⟩
          simpa [SchedulerEvent.cancels] using hcancels

/-- A run that begins does so at the first unit of the script of the program that is loaded, and goes along
the course from there. -/
theorem Upright.runs (h : t.Upright settings) {marks : List String} {exchanges : List Exchange}
    (run : t.Runs service marks exchanges u) :
    let s := t.scheduler.session.start.2
    s.machine = t.scheduler.session.workspace.script?.map .ofProgram ∧ s.pending = none ∧
      s.console.highlight = .none ∧ (s.isActive = true → s.console.transcript = []) ∧
      (s.course t.api [] []).Leads service (u.course marks exchanges) := by
  obtain ⟨w, hw⟩ := h.loaded
  obtain ⟨hmachine, hpending, hhighlight, htranscript⟩ := hw.start_machine run.idle
  rw [hw.workspace]
  exact ⟨hmachine, hpending, hhighlight, htranscript, run.leads hw.held⟩

/-- A reset, a new program and the end of the scheduler are the end of a run that is active, whatever it was
doing: nothing of it is left, and no continuation is due. Where nothing of a run is left, nothing happens in
one until another one begins: no unit, no mark, no line, no question, no request, no result, and no
continuation but the end of the rest after a run that was over before. All that happens later belongs to a
run that begins later, at the first unit of the program that is loaded then. A change of view changes
nothing. -/
theorem cancelled_for_good (service : Service σ) (settings : Settings) (prompter : Prompter) (api : σ)
    (before : List SchedulerEvent) (e : SchedulerEvent) (cancels : e.cancels = true) :
    let t := afterEvents service settings prompter api before
    let u := t.take service e
    (u.scheduler.Vacant ∧ (t.scheduler.session.isActive = true → u.scheduler.next = none)) ∧
    (∀ later, let v := later.foldl (take service) u
      (v.scheduler.Vacant ∨ ∃ earlier o rest, later = earlier ++ .occasion o :: rest ∧
        let b := earlier.foldl (take service) u
        b.begins o = true ∧ ∃ marks exchanges, b.Runs service marks exchanges v) ∧
      (v.scheduler.Vacant → ∀ e, v.opens e = false → v.Idles service e) ∧
      ∀ marks exchanges w, v.Runs service marks exchanges w →
        let s := v.scheduler.session.start.2
        s.machine = v.scheduler.session.workspace.script?.map .ofProgram ∧ s.pending = none ∧
          s.console.highlight = .none ∧ (s.isActive = true → s.console.transcript = []) ∧
          (s.course v.api [] []).Leads service (w.course marks exchanges)) ∧
    let viewed := t.take service (.occasion (.command (.edit .view)))
    viewed.scheduler = t.scheduler ∧ viewed.api = t.api ∧ viewed.now = t.now ∧
      viewed.closed = t.closed := by
  intro t u
  have ht : t.Upright settings := (upright_new settings prompter api).foldl service before
  obtain ⟨hvacant, hnext⟩ := ht.cancelled service cancels
  have hu : u.Upright settings := ht.take service e
  refine ⟨⟨hvacant, hnext⟩, fun later => ?_, ?_⟩
  · have hv := hu.foldl service later
    exact ⟨hu.later hvacant later, fun hquiet e he => idles_of_vacant hquiet he,
      fun marks exchanges w run => hv.runs run⟩
  · cases hclosed : t.closed with
    | true =>
      rw [take_of_closed hclosed]
      exact ⟨rfl, rfl, rfl, hclosed⟩
    | false =>
      rw [take_of_open hclosed]
      exact ⟨rfl, rfl, rfl, hclosed⟩

/-- A run is reset that has asked for its action and not heard of its end. What is still to come of it
does not come, and the next run begins anew. -/
theorem cancelled_focusAndPrint :
    let send (c : Command) : SchedulerEvent := .occasion (.command c)
    let before := [send (.edit (.program focusAndPrint)), send .run, .occasion .call]
    let t := afterEvents Prepared.service {} (.ofAnswers []) slowFocus before
    let u := t.take Prepared.service (send .reset)
    let v := [SchedulerEvent.occasion .call, .occasion .timer].foldl (take Prepared.service) u
    (t.scheduler.session.pending.isSome = true ∧ t.scheduler.next.isSome = true) ∧
    (u.scheduler.next = none ∧ v.scheduler.Vacant ∧ v.Idles Prepared.service (.occasion .call)) ∧
    v.scheduler.session.start.2.isActive = true ∧ v.scheduler.session.start.2.machine =
      v.scheduler.session.workspace.script?.map .ofProgram := by
  intro send before t u v
  have ht : t.scheduler.session.isActive = true ∧ t.scheduler.session.pending.isSome = true ∧
      t.scheduler.next.isSome = true ∧ v.begins (.command .step) = true ∧
        v.scheduler.session.start.2.isActive = true := by decide +kernel
  obtain ⟨hactive, hpending, hnext, hbegins, hstarted⟩ := ht
  obtain ⟨⟨-, hdropped⟩, hlater, -⟩ := cancelled_for_good Prepared.service {} (.ofAnswers [])
    slowFocus before (send .reset) rfl
  obtain ⟨hvacant, hidles, hruns⟩ := hlater [.occasion .call, .occasion .timer]
  have hquiet : v.scheduler.Vacant := by
    rcases hvacant with hvacant | ⟨earlier, o, rest, hsplit, hbegun, -⟩
    · exact hvacant
    · have ho : SchedulerEvent.occasion o ∈ [SchedulerEvent.occasion .call, .occasion .timer] := by
        simp [hsplit]
      have ho : o = .call ∨ o = .timer := by simpa using ho
      rcases ho with rfl | rfl <;> cases hbegun
  exact ⟨⟨hpending, hnext⟩, ⟨hdropped hactive, hquiet, hidles hquiet (.occasion .call) rfl⟩,
    hstarted, (hruns _ _ _ (.begun hbegins)).1⟩

end SchedulerTimeline

end ScopeBlocks
