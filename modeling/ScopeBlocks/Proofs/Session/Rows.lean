import ScopeBlocks.Proofs.Session.Soundness
import ScopeBlocks.Session.Timeline

/-! The modes of a scheduler. In each mode the controls, the continuation and the run are as the row of
that mode says, whatever has been commanded and whatever was due before. -/
namespace ScopeBlocks

def Continuation.mode : Continuation → Mode
  | .step => .stepping
  | .run => .running
  | .cooldown => .cooldown

namespace Scheduler

/-- What holds of a scheduler in a mode. -/
def Row (s : Scheduler) : Mode → Prop
  | .idle => s.controls = true ∧ s.next = none ∧ s.session.isActive = false
  | .paused => s.controls = true ∧ s.next = none ∧ s.session.isActive = true ∧
      s.session.console.highlight.current.isSome = true ∧ s.session.isPaused = true ∧
        s.session.pending = none
  | .stepping => s.controls = false ∧ (∃ due, s.next = some (.step, due)) ∧
      s.session.isActive = true
  | .running => s.controls = false ∧ (∃ due, s.next = some (.run, due)) ∧
      s.session.isActive = true
  | .cooldown => s.controls = false ∧ (∃ due, s.next = some (.cooldown, due)) ∧
      s.session.isActive = false

/-- The mode that the continuation and the run of a scheduler leave open. -/
def standing (s : Scheduler) : Mode :=
  match s.next with
  | some (c, _) => c.mode
  | none => if s.session.isActive then .paused else .idle

theorem Row.eq_standing {s : Scheduler} {r : Mode} (h : s.Row r) : r = s.standing := by
  unfold standing
  cases r with
  | idle =>
    obtain ⟨-, hn, hi⟩ := h
    simp [hn, hi]
  | paused =>
    obtain ⟨-, hn, hi, -⟩ := h
    simp [hn, hi]
  | stepping | running | cooldown =>
    obtain ⟨-, ⟨due, hn⟩, -⟩ := h
    rw [hn]
    rfl

structure Sound (s : Scheduler) : Prop where
  session : s.session.Sound
  row : s.Row s.mode
  paused : s.session.isPaused = true ↔ s.mode = .paused

variable {s : Scheduler} {now : Nat}

theorem sound_new (settings : Settings) (prompter : Prompter) : (new settings prompter).Sound where
  session := Session.sound_new settings prompter
  row := ⟨rfl, rfl, rfl⟩
  paused := ⟨nofun, nofun⟩

theorem isPaused_of_inactive (h : s.session.Sound) (hi : s.session.isActive = false) :
    s.session.isPaused = false := h.inactive (by simpa [Session.isActive] using hi)

theorem finish_sound (h : s.session.Sound) (hi : s.session.isActive = false) :
    (s.finish now).Sound where
  session := h
  row := ⟨rfl, ⟨_, rfl⟩, hi⟩
  paused := by
    have hpaused := isPaused_of_inactive h hi
    constructor
    · intro hp
      rw [show (s.finish now).session.isPaused = false from hpaused] at hp
      cases hp
    · nofun

theorem advanceStep_sound (units : Nat) (h : s.session.Sound) (hq : s.session.isPaused = false)
    (hi : s.session.isActive = true) (hmode : s.mode = .stepping) (hc : s.controls = false)
    (hn : s.next = none) : (advanceStep now units s).Sound := by
  induction units generalizing s with
  | zero =>
    unfold advanceStep
    refine ⟨h, ?_, ?_⟩
    · dsimp only
      rw [hmode]
      exact ⟨hc, ⟨now, rfl⟩, hi⟩
    · dsimp only
      simp [hmode, hq]
  | succ units ih =>
    obtain ⟨hwent, hwaits⟩ := Session.tick_wentOn h now
    unfold advanceStep
    rcases htick : s.session.tick now with ⟨progress, session⟩
    rw [htick] at hwent hwaits
    obtain ⟨hsound, hwent⟩ := hwent
    cases progress with
    | advanced =>
      obtain ⟨hactive, hpending⟩ := hwent
      dsimp only
      split
      next hp => exact ⟨hsound, ⟨rfl, hn, hactive, hsound.current hp, hp, hpending⟩, by simp [hp]⟩
      next hp => exact ih hsound (by simpa using hp) hactive hmode hc hn
    | waiting =>
      have hp : session.isPaused = false := (hwaits rfl).trans hq
      refine ⟨hsound, ?_, ?_⟩
      · dsimp only
        rw [hmode]
        exact ⟨hc, ⟨_, rfl⟩, hwent⟩
      · dsimp only
        simp [hmode, hp]
    | finished => exact finish_sound hsound hwent

theorem advanceRun_sound (h : s.session.Sound)
    (hq : s.session.isPaused = false ∨ s.session.pending = none) (hmode : s.mode = .running)
    (hc : s.controls = false) : (s.advanceRun now).Sound := by
  obtain ⟨⟨hsound, hwent⟩, hp⟩ := Session.runSlice_wentOn h hq now
  unfold advanceRun
  rcases hslice : s.session.runSlice now with ⟨progress, session⟩
  rw [hslice] at hsound hwent hp
  have going : session.isActive = true →
      Sound { s with session, next := some (.run, now + s.runTick) } := by
    intro hactive
    refine ⟨hsound, ?_, ?_⟩
    · dsimp only
      rw [hmode]
      exact ⟨hc, ⟨_, rfl⟩, hactive⟩
    · dsimp only at hp ⊢
      simp [hmode, hp]
  cases progress with
  | advanced => exact going hwent.1
  | waiting => exact going hwent
  | finished => exact finish_sound hsound hwent

theorem Sound.free (h : s.Sound) (hc : s.controls = true) :
    s.next = none ∧ s.session.pending = none := by
  have hrow := h.row
  cases hm : s.mode with
  | idle =>
    rw [hm] at hrow
    exact ⟨hrow.2.1, h.session.pending_none hrow.2.2⟩
  | paused =>
    rw [hm] at hrow
    exact ⟨hrow.2.1, hrow.2.2.2.2.2⟩
  | stepping | running | cooldown =>
    rw [hm] at hrow
    rw [hrow.1] at hc
    cases hc

theorem Sound.mode_of_next (h : s.Sound) {c : Continuation} {due : Nat}
    (hn : s.next = some (c, due)) : s.mode = c.mode := by
  rw [h.row.eq_standing]
  unfold standing
  rw [hn]

variable (now) in
theorem start_sound (h : s.Sound) (hc : s.controls = true) :
    (s.start now).1 = false ∧ (s.start now).2.Sound ∨
      (s.start now).1 = true ∧ (s.start now).2.session.Sound ∧
        (s.start now).2.session.isActive = true ∧ (s.start now).2.session.pending = none ∧
          (s.start now).2.controls = false ∧ (s.start now).2.next = none := by
  obtain ⟨hn, hp⟩ := h.free hc
  obtain ⟨hsound, hstarted, hfresh, hsame⟩ := Session.start_sound h.session
  unfold start
  rcases hs : s.session.start with ⟨started, session⟩
  rw [hs] at hsound hstarted hfresh hsame
  dsimp only at hstarted ⊢
  split
  next hon =>
    refine .inr ⟨rfl, hsound, hstarted ▸ hon, ?_, rfl, hn⟩
    cases hactive : s.session.isActive with
    | false => exact (hfresh hactive).2
    | true =>
      rw [show session = s.session from hsame hactive]
      exact hp
  next hoff => exact .inl ⟨rfl, finish_sound hsound (by simpa [hstarted] using hoff)⟩

/-- Without its run a scheduler is idle, or rests after the last run. -/
theorem cancel_sound (h : s.Sound) {session : Session} (hs : session.Sound)
    (hi : session.isActive = false) : Sound { s.cancel with session } := by
  have hp : session.isPaused = false := isPaused_of_inactive (s := { s with session }) hs hi
  unfold cancel
  split
  next due hn =>
    have hm := h.mode_of_next hn
    have hrow := h.row
    rw [hm] at hrow
    refine ⟨hs, ?_, ?_⟩
    · dsimp only
      rw [hm]
      exact ⟨hrow.1, ⟨due, hn⟩, hi⟩
    · dsimp only
      simp [hm, hp, Continuation.mode]
  next =>
    refine ⟨hs, ⟨rfl, rfl, hi⟩, ?_⟩
    dsimp only
    simp [hp]

theorem cancel_session (s : Scheduler) : s.cancel.session = s.session := by
  unfold cancel
  split <;> rfl

theorem handle_sound (h : s.Sound) (now : Nat) (c : Command) : (s.handle now c).Sound := by
  cases c with
  | edit change =>
    cases change with
    | view => exact h
    | program w =>
      unfold handle
      dsimp only
      rw [cancel_session]
      exact cancel_sound h (h.session.apply (.program w)) rfl
  | reset =>
    unfold handle
    dsimp only
    rw [cancel_session]
    exact cancel_sound h h.session.reset rfl
  | step =>
    unfold handle
    dsimp only
    split
    next hc =>
      have hstart := start_sound now h hc
      rcases hs : s.start now with ⟨started, t⟩
      rw [hs] at hstart
      rcases hstart with ⟨rfl, ht⟩ | ⟨rfl, ht, hi, -, hoff, hn⟩
      · exact ht
      · exact advanceStep_sound _ ht.clearPause rfl hi rfl hoff hn
    next => exact h
  | run =>
    unfold handle
    dsimp only
    split
    next hc =>
      have hstart := start_sound now h hc
      rcases hs : s.start now with ⟨started, t⟩
      rw [hs] at hstart
      rcases hstart with ⟨rfl, ht⟩ | ⟨rfl, ht, -, hp, hoff, -⟩
      · exact ht
      · exact advanceRun_sound (s := { t with mode := .running }) ht (.inr hp) rfl hoff
    next => exact h

theorem resume_sound (h : s.Sound) {c : Continuation} {due : Nat} (hn : s.next = some (c, due))
    (now : Nat) : (s.resume now c).Sound := by
  have hm := h.mode_of_next hn
  have hrow := h.row
  have hpaused := h.paused
  rw [hm] at hrow hpaused
  unfold resume
  cases c with
  | step =>
    exact advanceStep_sound _ h.session (by simpa [Continuation.mode] using hpaused) hrow.2.2 hm hrow.1 rfl
  | run => exact advanceRun_sound h.session (.inl (by simpa [Continuation.mode] using hpaused)) hm hrow.1
  | cooldown =>
    refine ⟨h.session, ⟨rfl, rfl, hrow.2.2⟩, ?_⟩
    dsimp only at hpaused ⊢
    simpa [Continuation.mode] using hpaused

theorem handle_next (h : s.Sound) (now : Nat) (c : Command) :
    s.next = none ∨ (s.handle now c).next = s.next ∨ (s.handle now c).next = none := by
  have hcancel : s.cancel.next = s.next ∨ s.cancel.next = none := by
    unfold cancel
    split
    · exact .inl rfl
    · exact .inr rfl
  cases c with
  | edit change =>
    cases change with
    | view => exact .inr (.inl rfl)
    | program w => exact .inr hcancel
  | reset => exact .inr hcancel
  | step | run =>
    cases hc : s.controls with
    | true => exact .inl (h.free hc).1
    | false =>
      unfold handle
      simp [hc]

end Scheduler

/-- What happens to a scheduler: a command, the continuation that is due, something that the awaited call
does, or time passes. -/
inductive Occasion where
  | command (c : Command)
  | timer
  | call
  | pass (duration : Nat)

namespace SchedulerTimeline

variable {σ : Type} (service : Service σ)

def meet (t : SchedulerTimeline σ) : Occasion → SchedulerTimeline σ
  | .command c => (t.send c).getD t
  | .timer =>
    match t.scheduler.next with
    | none => t
    | some (c, due) => t.happen service (.continuation c) due
  | .call => t.happen service .call t.now
  | .pass duration => { t with now := t.now + duration }

def after (settings : Settings) (prompter : Prompter) (api : σ) (occasions : List Occasion) :
    SchedulerTimeline σ :=
  occasions.foldl (meet service) (new settings prompter api)

structure Sound (t : SchedulerTimeline σ) : Prop where
  scheduler : t.scheduler.Sound
  published : t.published.highlight.paused = true ↔ t.published.mode = .paused

variable {service}

theorem publish_sound (t : SchedulerTimeline σ) {s : Scheduler} (h : s.Sound) : (t.publish s).Sound :=
  ⟨h, h.paused⟩

theorem meet_sound {t : SchedulerTimeline σ} (h : t.Sound) (o : Occasion) :
    (t.meet service o).Sound := by
  cases o with
  | command c =>
    unfold meet send
    dsimp only
    split
    · exact h
    · exact t.publish_sound (Scheduler.handle_sound h.scheduler t.now c)
  | timer =>
    unfold meet
    dsimp only
    cases hn : t.scheduler.next with
    | none => exact h
    | some next => exact publish_sound _ (Scheduler.resume_sound h.scheduler hn _)
  | call =>
    unfold meet happen
    dsimp only
    cases hp : t.scheduler.session.pending with
    | none => exact ⟨h.scheduler, h.published⟩
    | some p =>
      have hs := h.scheduler
      refine ⟨⟨hs.session.callOn hp _, ?_, hs.paused⟩, h.published⟩
      have hrow := hs.row
      dsimp only
      cases hm : t.scheduler.mode with
      | paused =>
        rw [hm] at hrow
        rw [hrow.2.2.2.2.2] at hp
        cases hp
      | idle | stepping | running | cooldown =>
        rw [hm] at hrow
        exact hrow
  | pass duration => exact ⟨h.scheduler, h.published⟩

variable (service) in
theorem sound_after (settings : Settings) (prompter : Prompter) (api : σ)
    (occasions : List Occasion) : (after service settings prompter api occasions).Sound := by
  have hnew : (new settings prompter api).Sound :=
    ⟨Scheduler.sound_new settings prompter, (Scheduler.sound_new settings prompter).paused⟩
  unfold after
  generalize new settings prompter api = t at hnew
  induction occasions generalizing t with
  | nil => exact hnew
  | cons o occasions ih => exact ih _ (meet_sound hnew o)

/-- Whatever happens in whatever order, the row of its mode and no other one holds of a scheduler. Controls
that are off come on again: a continuation is due. A snapshot shows a pause just in the mode that is one.
A command leaves a live continuation alone or drops it, and steps and runs do nothing while the controls
are off. -/
theorem row_of_mode (settings : Settings) (prompter : Prompter) (api : σ)
    (occasions : List Occasion) :
    let t := after service settings prompter api occasions
    let s := t.scheduler
    (s.Row s.mode ∧ ∀ r, s.Row r → r = s.mode) ∧
    (s.controls = false → s.next.isSome = true) ∧
    (t.published.highlight.paused = true ↔ t.published.mode = .paused) ∧
    (∀ now c live, s.next = some live →
      (s.handle now c).next = some live ∨ (s.handle now c).next = none) ∧
    (s.controls = false → ∀ now, s.handle now .step = s ∧ s.handle now .run = s) := by
  obtain ⟨hs, hpublished⟩ := sound_after service settings prompter api occasions
  refine ⟨⟨hs.row, fun r hr => hr.eq_standing.trans hs.row.eq_standing.symm⟩, fun hc => ?_,
    hpublished, fun now c live hn => ?_, fun hc now => ?_⟩
  · have hrow := hs.row
    generalize (after service settings prompter api occasions).scheduler = s at hrow hc
    cases hm : s.mode with
    | idle | paused =>
      rw [hm] at hrow
      rw [hrow.1] at hc
      cases hc
    | stepping | running | cooldown =>
      rw [hm] at hrow
      obtain ⟨-, ⟨due, hn⟩, -⟩ := hrow
      rw [hn]
      rfl
  · rcases Scheduler.handle_next hs now c with hnone | hsame | hdropped
    · rw [hnone] at hn
      cases hn
    · exact .inl (hsame.trans hn)
    · exact .inr hdropped
  · simp [Scheduler.handle, hc]

end SchedulerTimeline

end ScopeBlocks
