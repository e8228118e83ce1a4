import ScopeBlocks.Proofs.Session.Cancellation

/-! The rest after a run. A run that comes to its end, or fails to begin, leaves the controls off until the
end of the rest is due; no command makes it come sooner, and nothing else turns the controls on again. -/
namespace ScopeBlocks

namespace Scheduler

variable {s : Scheduler} {now : Nat}

theorem advanceStep_cooldown (now units : Nat) (s : Scheduler) :
    (advanceStep now units s).cooldown = s.cooldown := by
  induction units generalizing s with
  | zero => rfl
  | succ units ih =>
    unfold advanceStep
    split
    · split
      · rfl
      · exact ih _
    · rfl
    · rfl

theorem advanceRun_cooldown (s : Scheduler) (now : Nat) :
    (s.advanceRun now).cooldown = s.cooldown := by
  unfold advanceRun
  split <;> rfl

theorem start_cooldown (s : Scheduler) (now : Nat) : (s.start now).2.cooldown = s.cooldown := by
  unfold start
  dsimp only
  split <;> rfl

theorem cancel_cooldown (s : Scheduler) : s.cancel.cooldown = s.cooldown := by
  unfold cancel
  split <;> rfl

theorem handle_cooldown (s : Scheduler) (now : Nat) (c : Command) :
    (s.handle now c).cooldown = s.cooldown := by
  cases c with
  | edit change =>
    cases change with
    | view => rfl
    | program w => exact s.cancel_cooldown
  | reset => exact s.cancel_cooldown
  | step | run =>
    unfold handle
    dsimp only
    split
    · have hstart := s.start_cooldown now
      rcases hs : s.start now with ⟨_ | _, t⟩
      all_goals
        rw [hs] at hstart
        simpa only [advanceStep_cooldown, advanceRun_cooldown] using hstart
    · rfl

theorem resume_cooldown (s : Scheduler) (now : Nat) (c : Continuation) :
    (s.resume now c).cooldown = s.cooldown := by
  cases c with
  | step => exact advanceStep_cooldown ..
  | run => exact advanceRun_cooldown ..
  | cooldown => rfl

/-- A run that is still active, or the rest after it, which begins at the given time. -/
def GoesOnOrRests (s : Scheduler) (now : Nat) (s' : Scheduler) : Prop :=
  s'.session.isActive = true ∨ s'.next = some (.cooldown, now + s.cooldown)

theorem advanceStep_rests (units : Nat) (h : s.session.Sound) (hi : s.session.isActive = true) :
    s.GoesOnOrRests now (advanceStep now units s) := by
  induction units generalizing s with
  | zero => exact .inl hi
  | succ units ih =>
    obtain ⟨hwent, -⟩ := Session.tick_wentOn h now
    unfold advanceStep
    rcases htick : s.session.tick now with ⟨progress, session⟩
    rw [htick] at hwent
    obtain ⟨hsound, hwent⟩ := hwent
    cases progress with
    | advanced =>
      dsimp only
      split
      · exact .inl hwent.1
      · exact ih (s := { s with session }) hsound hwent.1
    | waiting => exact .inl hwent
    | finished => exact .inr rfl

theorem advanceRun_rests (h : s.session.Sound)
    (hq : s.session.isPaused = false ∨ s.session.pending = none) :
    s.GoesOnOrRests now (s.advanceRun now) := by
  obtain ⟨⟨-, hwent⟩, -⟩ := Session.runSlice_wentOn h hq now
  unfold advanceRun
  rcases hslice : s.session.runSlice now with ⟨progress, session⟩
  rw [hslice] at hwent
  cases progress with
  | advanced => exact .inl hwent.1
  | waiting => exact .inl hwent
  | finished => exact .inr rfl

theorem handle_rests (h : s.Sound) (hc : s.controls = true) {c : Command}
    (hcommand : c = .step ∨ c = .run) : s.GoesOnOrRests now (s.handle now c) := by
  have hstart := start_sound now h hc
  have hcooldown := s.start_cooldown now
  have hfails : (s.start now).1 = false → s.GoesOnOrRests now (s.start now).2 := by
    intro hfails
    unfold start at hfails ⊢
    dsimp only at hfails ⊢
    split at hfails
    next => cases hfails
    next hoff =>
      rw [if_neg hoff]
      exact .inr rfl
  unfold GoesOnOrRests at hfails ⊢
  rcases hcommand with rfl | rfl
  all_goals
    unfold handle
    simp only [hc, if_true]
    rcases hs : s.start now with ⟨started, t⟩
    rw [hs] at hstart hcooldown hfails
    dsimp only at hcooldown
    rw [← hcooldown] at hfails ⊢
    rcases hstart with ⟨rfl, -⟩ | ⟨rfl, ht, hi, hp, -⟩
  · exact hfails rfl
  · exact advanceStep_rests (s := { t with session := t.session.clearPause, mode := .stepping }) _
      ht.clearPause hi
  · exact hfails rfl
  · exact advanceRun_rests (s := { t with mode := .running }) ht (.inr hp)

theorem resume_rests (h : s.Sound) (hi : s.session.isActive = true) {c : Continuation} {due : Nat}
    (hn : s.next = some (c, due)) : s.GoesOnOrRests now (s.resume now c) := by
  have hmode := h.mode_of_next hn
  cases c with
  | step => exact advanceStep_rests (s := { s with next := none }) _ h.session hi
  | run =>
    have hq : s.session.isPaused = false := by
      simpa [hmode, Continuation.mode] using h.paused
    exact advanceRun_rests (s := { s with next := none }) h.session (.inl hq)
  | cooldown => exact .inl hi

/-- Commands neither move nor drop the end of the rest, and begin no run before it. -/
theorem handle_at_rest (now : Nat) (hc : s.controls = false) (hi : s.session.isActive = false)
    {due : Nat} (hn : s.next = some (.cooldown, due)) (c : Command) :
    (s.handle now c).controls = false ∧ (s.handle now c).session.isActive = false ∧
      (s.handle now c).next = some (.cooldown, due) := by
  have hkept : s.cancel = s := by
    unfold cancel
    rw [hn]
  cases c with
  | edit change =>
    cases change with
    | view => exact ⟨hc, hi, hn⟩
    | program w =>
      unfold handle
      rw [hkept]
      exact ⟨hc, rfl, hn⟩
  | reset =>
    unfold handle
    rw [hkept]
    exact ⟨hc, rfl, hn⟩
  | step | run =>
    simp only [handle, hc, Bool.false_eq_true, if_false]
    exact ⟨trivial, hi, hn⟩

end Scheduler

namespace SchedulerTimeline

variable {σ : Type} (service : Service σ)

/-- Whether a run is over with an event that does not cancel it: it is finished, or fails, or an event that
would begin it finds that there is none. -/
def ends (t : SchedulerTimeline σ) (e : SchedulerEvent) : Bool :=
  (t.scheduler.session.isActive || t.opens e) && !e.cancels &&
    !(t.take service e).scheduler.session.isActive

/-- The rest after a run: the controls are off, and shown to be, without a run. It is to end at a set time
unless the scheduler is closed before. -/
structure Resting (t : SchedulerTimeline σ) (due : Nat) : Prop where
  controls : t.scheduler.controls = false
  shown : t.published.controls = false
  inactive : t.scheduler.session.isActive = false
  next : t.scheduler.next = if t.closed then none else some (.cooldown, due)

variable {service} {settings : Settings} {t u : SchedulerTimeline σ} {due : Nat}

theorem take_cooldown (t : SchedulerTimeline σ) (e : SchedulerEvent) :
    (t.take service e).scheduler.cooldown = t.scheduler.cooldown := by
  cases e with
  | close =>
    unfold take shutdown
    cases t.closed <;> rfl
  | occasion o =>
    cases o with
    | command c =>
      cases hclosed : t.closed with
      | true => rw [take_of_closed hclosed]
      | false =>
        rw [take_of_open hclosed]
        exact Scheduler.handle_cooldown ..
    | timer =>
      cases hn : t.scheduler.next with
      | none => simp only [take, meet, hn]
      | some next =>
        simp only [take, meet, hn]
        exact Scheduler.resume_cooldown ..
    | call =>
      cases hp : t.scheduler.session.pending with
      | none => simp only [take, meet, happen, hp]
      | some p => simp only [take, meet, happen, hp]
    | pass duration => rfl

theorem cooldown_afterEvents (service : Service σ) (settings : Settings) (prompter : Prompter)
    (api : σ) (events : List SchedulerEvent) :
    (afterEvents service settings prompter api events).scheduler.cooldown = settings.cooldown := by
  unfold afterEvents
  rw [← show (new settings prompter api).scheduler.cooldown = settings.cooldown from rfl]
  generalize new settings prompter api = t
  induction events generalizing t with
  | nil => rfl
  | cons e events ih => exact (ih _).trans (t.take_cooldown e)

variable (service) in
theorem take_now (t : SchedulerTimeline σ) (e : SchedulerEvent) : t.now ≤ (t.take service e).now := by
  cases e with
  | close =>
    unfold take shutdown
    cases t.closed <;> exact le_refl _
  | occasion o =>
    cases o with
    | command c =>
      cases hclosed : t.closed with
      | true => rw [take_of_closed hclosed]
      | false =>
        rw [take_of_open hclosed]
        exact le_refl _
    | timer =>
      cases hn : t.scheduler.next with
      | none => simp only [take, meet, hn, le_refl]
      | some next =>
        simp only [take, meet, hn]
        exact le_max_left ..
    | call =>
      cases hp : t.scheduler.session.pending with
      | none => simp only [take, meet, happen, hp, le_max_left]
      | some p => simp only [take, meet, happen, hp, le_max_left]
    | pass duration => exact Nat.le_add_right ..

variable (service) in
theorem foldl_now (t : SchedulerTimeline σ) (events : List SchedulerEvent) :
    t.now ≤ (events.foldl (take service) t).now := by
  induction events generalizing t with
  | nil => exact le_refl _
  | cons e events ih => exact (t.take_now service e).trans (ih _)

theorem Resting.opens (h : t.Resting due) (e : SchedulerEvent) : t.opens e = false := by
  cases e with
  | close => rfl
  | occasion o =>
    cases o with
    | command c =>
      cases c with
      | step | run => simp [SchedulerTimeline.opens, begins, h.controls]
      | edit | reset => rfl
    | timer | call | pass => rfl

theorem take_call_active (t : SchedulerTimeline σ) :
    (t.take service (.occasion .call)).scheduler.session.isActive =
      t.scheduler.session.isActive := by
  simp only [take, meet, happen]
  cases t.scheduler.session.pending <;> rfl

theorem Upright.open_of_ends (h : t.Upright settings) {e : SchedulerEvent}
    (he : (t.scheduler.session.isActive || t.opens e) = true) : t.closed = false := by
  cases hclosed : t.closed with
  | false => rfl
  | true =>
    have hinactive : t.scheduler.session.isActive = false := by
      simp [Session.isActive, (h.closed hclosed).1.machine]
    cases e with
    | close => simp [hinactive, opens] at he
    | occasion o =>
      cases o with
      | command c => cases c <;> simp [hinactive, opens, begins, hclosed] at he
      | timer | call | pass => simp [hinactive, opens, begins] at he

theorem resting_of_over (hu : u.Sound) (hshown : u.published.controls = u.scheduler.controls)
    (hopen : u.closed = false) (hover : u.scheduler.session.isActive = false) {s : Scheduler}
    (hgoes : s.GoesOnOrRests u.now u.scheduler) : u.Resting (u.now + s.cooldown) := by
  have hnext := hgoes.resolve_left (by simp [hover])
  have hrow := hu.scheduler.row
  rw [hu.scheduler.mode_of_next hnext] at hrow
  exact ⟨hrow.1, hshown.trans hrow.1, hover, by rw [hnext, hopen, if_neg Bool.false_ne_true]⟩

/-- A run that is over leaves the scheduler at rest, whatever its end was. -/
theorem Upright.rests (h : t.Upright settings) {e : SchedulerEvent} (he : t.ends service e = true) :
    (t.take service e).Resting ((t.take service e).now + t.scheduler.cooldown) ∧
      (t.take service e).closed = false := by
  have hends : ((t.scheduler.session.isActive || t.opens e) = true ∧ e.cancels = false) ∧
      (t.take service e).scheduler.session.isActive = false := by simpa [ends] using he
  obtain ⟨⟨hrun, hkeeps⟩, hover⟩ := hends
  have hopen := h.open_of_ends hrun
  have hsound := (h.opened hopen).scheduler
  cases e with
  | close => cases hkeeps
  | occasion o =>
    have hu : (t.take service (.occasion o)).Sound := meet_sound (h.opened hopen) o
    have hstays : (t.take service (.occasion o)).closed = false :=
      (t.meet_closed service o).trans hopen
    have hactive : t.begins o = false → t.scheduler.session.isActive = true := by
      intro hbegins
      simpa [opens, hbegins] using hrun
    refine ⟨?_, hstays⟩
    cases o with
    | command c =>
      rw [take_of_open hopen] at hover hstays hu ⊢
      cases c with
      | edit change =>
        cases change with
        | view =>
          rw [show t.scheduler.session.isActive = false from hover] at hactive
          cases hactive rfl
        | program w => cases hkeeps
      | reset => cases hkeeps
      | step | run =>
        cases hc : t.scheduler.controls with
        | true =>
          exact resting_of_over hu rfl hstays hover (Scheduler.handle_rests hsound hc (by simp))
        | false =>
          have hinactive : t.scheduler.session.isActive = false := by
            simpa [publish, Scheduler.handle, hc] using hover
          rw [hinactive] at hactive
          cases hactive (by simp [begins, hc])
    | timer =>
      cases hn : t.scheduler.next with
      | none =>
        simp only [SchedulerTimeline.take, meet, hn, hactive rfl] at hover
        cases hover
      | some next =>
        simp only [SchedulerTimeline.take, meet, hn] at hover hstays hu ⊢
        exact resting_of_over hu rfl hstays hover (Scheduler.resume_rests hsound (hactive rfl) hn)
    | call =>
      rw [take_call_active, hactive rfl] at hover
      cases hover
    | pass duration =>
      rw [show t.scheduler.session.isActive = false from hover] at hactive
      cases hactive rfl

variable (service) in
theorem Upright.take_closed (h : t.Upright settings) (hclosed : t.closed = true) (e : SchedulerEvent) :
    (t.take service e).scheduler = t.scheduler ∧ (t.take service e).published = t.published ∧
      (t.take service e).closed = true := by
  obtain ⟨hvacant, hnext⟩ := h.closed hclosed
  cases e with
  | close =>
    simp only [SchedulerTimeline.take, shutdown, hclosed, if_true, Option.getD_none, and_self]
  | occasion o =>
    cases o with
    | command c =>
      rw [take_of_closed hclosed]
      exact ⟨rfl, rfl, hclosed⟩
    | timer => simp only [SchedulerTimeline.take, meet, hnext, hclosed, and_self]
    | call => simp only [SchedulerTimeline.take, meet, happen, hvacant.pending, hclosed, and_self]
    | pass duration => exact ⟨rfl, rfl, hclosed⟩

theorem Resting.take (hr : t.Resting due) (h : t.Upright settings) {e : SchedulerEvent}
    (he : e = .occasion .timer → t.closed = true) : (t.take service e).Resting due := by
  obtain ⟨hcontrols, hshown, hinactive, hnext⟩ := hr
  cases hclosed : t.closed with
  | true =>
    obtain ⟨hscheduler, hpublished, hstays⟩ := h.take_closed service hclosed e
    refine ⟨hscheduler ▸ hcontrols, hpublished ▸ hshown, hscheduler ▸ hinactive, ?_⟩
    rw [hscheduler, hstays, hnext, hclosed]
  | false =>
    rw [hclosed, if_neg Bool.false_ne_true] at hnext
    cases e with
    | close =>
      simp only [SchedulerTimeline.take, shutdown, hclosed, Bool.false_eq_true, if_false, Option.getD_some]
      exact ⟨hcontrols, hshown, rfl, rfl⟩
    | occasion o =>
      have hstays : (t.take service (.occasion o)).closed = false :=
        (t.meet_closed service o).trans hclosed
      cases o with
      | command c =>
        obtain ⟨hoff, hidle, hdue⟩ := Scheduler.handle_at_rest t.now hcontrols hinactive hnext c
        rw [take_of_open hclosed] at hstays ⊢
        exact ⟨hoff, hoff, hidle, by rw [hstays, if_neg Bool.false_ne_true]; exact hdue⟩
      | timer =>
        rw [he rfl] at hclosed
        cases hclosed
      | call =>
        have hpending := (h.opened hclosed).scheduler.session.pending_none hinactive
        simp only [SchedulerTimeline.take, meet, happen, hpending]
        exact ⟨hcontrols, hshown, hinactive, by simp [hclosed, hnext]⟩
      | pass duration =>
        refine ⟨hcontrols, hshown, hinactive, ?_⟩
        rw [hstays, if_neg Bool.false_ne_true]
        exact hnext

variable (service) in
theorem Resting.timer (hr : t.Resting due) (hopen : t.closed = false) :
    let u := t.take service (.occasion .timer)
    due ≤ u.now ∧ u.scheduler.controls = true ∧ u.published.controls = true := by
  have hnext := hr.next
  rw [hopen, if_neg Bool.false_ne_true] at hnext
  simp only [SchedulerTimeline.take, meet, hnext]
  exact ⟨le_max_right .., rfl, rfl⟩

variable (service) in
/-- A scheduler at rest stays so until the end of the rest, which is the first event to turn the controls
on. -/
theorem Resting.later (hr : u.Resting due) (h : u.Upright settings) (later : List SchedulerEvent) :
    (later.foldl (SchedulerTimeline.take service) u).Resting due ∨
      ∃ earlier rest, later = earlier ++ .occasion .timer :: rest ∧
        (∀ part, part <+: earlier → (part.foldl (SchedulerTimeline.take service) u).Resting due) ∧
        (earlier.foldl (SchedulerTimeline.take service) u).closed = false := by
  induction later generalizing u with
  | nil => exact .inl hr
  | cons e later ih =>
    by_cases hfires : e = .occasion .timer ∧ u.closed = false
    · obtain ⟨rfl, hopen⟩ := hfires
      refine .inr ⟨[], later, rfl, fun part hpart => ?_, hopen⟩
      rw [List.prefix_nil.1 hpart]
      exact hr
    · have htaken : (u.take service e).Resting due := hr.take h fun he => by simpa [he] using hfires
      rcases ih htaken (h.take service e) with hrests | ⟨earlier, rest, rfl, hparts, hopen⟩
      · exact .inl hrests
      · refine .inr ⟨e :: earlier, rest, rfl, fun part hpart => ?_, hopen⟩
        rcases List.prefix_cons_iff.1 hpart with rfl | ⟨part, rfl, hpart'⟩
        · exact hr
        · exact hparts part hpart'

/-- A run that comes to its end, or fails to begin, is followed by a rest of a set length. Before it is over
the controls are off and shown to be, no run is there and no event begins one, whatever is commanded or
happens. The first event after which the controls are on again is the end of the rest: it comes when it is
due, and no command has moved or dropped it. A scheduler that is closed before rests for good. -/
theorem rest_unbroken (service : Service σ) (settings : Settings) (prompter : Prompter) (api : σ)
    (before : List SchedulerEvent) (e : SchedulerEvent)
    (hends : (afterEvents service settings prompter api before).ends service e = true) :
    let u := (afterEvents service settings prompter api before).take service e
    let due := u.now + settings.cooldown
    (u.Resting due ∧ u.closed = false) ∧
    ∀ later, let v := later.foldl (take service) u
      (v.now < due → v.Resting due) ∧ (v.Resting due → ∀ e, v.opens e = false) ∧
      (v.Resting due ∨ ∃ earlier rest, later = earlier ++ .occasion .timer :: rest ∧
        (∀ part, part <+: earlier → (part.foldl (take service) u).Resting due) ∧
        let w := earlier.foldl (take service) u
        let x := w.take service (.occasion .timer)
        w.scheduler.next = some (.cooldown, due) ∧ due ≤ x.now ∧ x.scheduler.controls = true ∧
          x.published.controls = true) := by
  intro u due
  have ht : (afterEvents service settings prompter api before).Upright settings :=
    (upright_new settings prompter api).foldl service before
  have hu : u.Upright settings := ht.take service e
  obtain ⟨hrests, hopen⟩ := ht.rests hends
  rw [cooldown_afterEvents] at hrests
  refine ⟨⟨hrests, hopen⟩, fun later => ?_⟩
  rcases hrests.later service hu later with hlater | ⟨earlier, rest, rfl, hparts, hopen⟩
  · exact ⟨fun _ => hlater, Resting.opens, .inl hlater⟩
  · have hw := hparts earlier (List.prefix_refl _)
    obtain ⟨hdue, hcontrols, hshown⟩ := hw.timer service hopen
    have hnext := hw.next
    rw [hopen, if_neg Bool.false_ne_true] at hnext
    refine ⟨fun hearly => ?_, Resting.opens,
      .inr ⟨earlier, rest, rfl, hparts, hnext, hdue, hcontrols, hshown⟩⟩
    -- no event sets the time back, so once the timer has fired it is not early any more
    rw [List.foldl_append, List.foldl_cons] at hearly
    exact absurd (hdue.trans (foldl_now service _ rest)) (Nat.not_le.2 hearly)

/-- A run ends, and in the rest after it resets, steps, runs and a new program are sent; only the end of the
rest, two seconds later, turns the controls on. A program without code does not start, and rests too. -/
theorem focusAndPrint_rests :
    let send (c : Command) : SchedulerEvent := .occasion (.command c)
    let edited (w : Workspace) := send (.edit (.program w))
    let before := [edited focusAndPrint, send .run, .occasion .call, .occasion .call]
    let t := afterEvents Prepared.service {} (.ofAnswers []) slowFocus before
    let u := t.take Prepared.service (.occasion .timer)
    let commands := [send .reset, send .step, edited .empty, send .run, .occasion (.pass 1999), send .run]
    let v := commands.foldl (take Prepared.service) u
    let w := v.take Prepared.service (.occasion .timer)
    let odd := afterEvents Prepared.service {} (.ofAnswers []) slowFocus
      [edited ⟨[], [[.ofKind "odd" "odd"]]⟩]
    (t.ends Prepared.service (.occasion .timer) = true ∧ v.now < u.now + 2000) ∧
      v.Resting (u.now + 2000) ∧ (∀ e, v.opens e = false) ∧
      (w.scheduler.controls = true ∧ w.now = u.now + 2000) ∧
      (odd.ends Prepared.service (send .run) = true ∧
        (odd.take Prepared.service (send .run)).Resting 2000) := by
  intro send edited before t u commands v w odd
  have hruns : t.ends Prepared.service (.occasion .timer) = true ∧ v.now < u.now + 2000 ∧
      (w.scheduler.controls = true ∧ w.now = u.now + 2000) ∧
        odd.ends Prepared.service (send .run) = true := by decide +kernel
  obtain ⟨hends, hearly, hon, hfails⟩ := hruns
  obtain ⟨-, hlater⟩ := rest_unbroken Prepared.service {} (.ofAnswers []) slowFocus before
    (.occasion .timer) hends
  obtain ⟨hrests, hquiet, -⟩ := hlater commands
  obtain ⟨⟨hfailed, -⟩, -⟩ := rest_unbroken Prepared.service {} (.ofAnswers []) slowFocus
    [edited ⟨[], [[.ofKind "odd" "odd"]]⟩] (send .run) hfails
  exact ⟨⟨hends, hearly⟩, hrests hearly, hquiet (hrests hearly), hon, hfails, hfailed⟩

end SchedulerTimeline

end ScopeBlocks
