import ScopeBlocks.Proofs.Session.Rows

/-! What holds of sessions at any time, whatever drives them. Every operation on a session keeps what it is
set to, and what all operations keep a scheduler keeps. -/
namespace ScopeBlocks

open Script (Machine Step)

namespace Session

/-- What holds at any time of a session with some settings. A session with an outcome has no run. -/
structure Held (settings : Settings) (s : Session) : Prop where
  matched : s.Matched
  bridge : s.bridge = .ofSettings settings
  policy : s.policy = settings.failurePolicy
  ended : s.outcome.isSome = true → s.machine = none ∧ s.pending = none

variable {settings : Settings} {s : Session} {now : Nat}

theorem held_new (settings : Settings) (prompter : Prompter) : (new settings prompter).Held settings where
  matched := matched_of_idle rfl rfl
  bridge := rfl
  policy := rfl
  ended _ := ⟨rfl, rfl⟩

theorem Held.outcome_none (h : s.Held settings) {m : Machine} (hm : s.machine = some m) :
    s.outcome = none := by
  cases ho : s.outcome with
  | none => rfl
  | some outcome =>
    obtain ⟨hnone, -⟩ := h.ended (by rw [ho]; rfl)
    rw [hnone] at hm
    cases hm

theorem Held.pending_none (h : s.Held settings) (hi : s.isActive = false) : s.pending = none := by
  rcases start_cases h.matched with ⟨hactive, -⟩ | ⟨-, hp, -⟩
  · rw [hi] at hactive
    cases hactive
  · exact hp

theorem Settles.policy {r : Option Progress × Session} (h : s.Settles r) : r.2.policy = s.policy := by
  cases h <;> rfl

theorem Settles.outcome {t : Session} (h : s.Settles (none, t)) : t.outcome = s.outcome := by
  cases h <;> rfl

theorem afterStep_policy (step : Except Script.Error Step) :
    (s.afterStep now step).2.policy = s.policy := by
  cases step with
  | error => rfl
  | ok step => cases step <;> rfl

theorem afterStep_ended (ho : s.outcome = none) (step : Except Script.Error Step) :
    (s.afterStep now step).2.outcome.isSome = true →
      (s.afterStep now step).2.machine = none ∧ (s.afterStep now step).2.pending = none := by
  have going : s.outcome.isSome = true → s.machine = none ∧ s.pending = none := by
    rw [ho]
    rintro ⟨⟩
  cases step with
  | error => exact fun _ => ⟨rfl, rfl⟩
  | ok step =>
    cases step with
    | «continue» | pending => exact going
    | suspend => exact fun h => absurd h (by simp [afterStep, ho])
    | done => exact fun _ => ⟨rfl, rfl⟩

theorem goOn_held {run : Machine → Console → Except Script.Error Step × Machine × Console}
    {after : Session → Session} (hd : Drives run after)
    (ha : ∀ s, (after s).policy = s.policy ∧ (after s).outcome = s.outcome) (h : s.Held settings) :
    (s.goOn now run after).2.Held settings := by
  refine ⟨goOn_matched hd h.matched, (goOn_bridge hd h.matched).trans h.bridge, ?_, ?_⟩
  all_goals
    have hgoes := goOn_goesOn run after now h.matched
    generalize s.goOn now run after = r, s.called? run = call at hgoes
  · cases hgoes with
    | stays hs => exact hs.policy.trans h.policy
    | idle => exact h.policy
    | runs hs => exact (afterStep_policy _).trans ((ha _).1.trans (hs.policy.trans h.policy))
  · cases hgoes with
    | stays hs =>
      cases hs with
      | waiting => exact h.ended
      | ended => exact fun _ => ⟨rfl, rfl⟩
    | idle => exact h.ended
    | @runs t m hs hm =>
      obtain ⟨-, -, hbefore⟩ := hs.keeps
      obtain ⟨m₀, hm₀, -⟩ := hbefore m hm
      have hrunning : t.outcome = none := hs.outcome.trans (h.outcome_none hm₀)
      exact afterStep_ended (s := t.driven after _) ((ha _).2.trans hrunning) _

theorem start_of_idle (hi : s.isActive = false) : s.start =
    match s.program with
    | .ok program => (true, { s.cleared with machine := some (.ofProgram program) })
    | .error message => (false, s.cleared.finish (.failed message)) := by
  simp only [start, hi, Bool.false_eq_true, if_false]
  rfl

theorem start_held (h : s.Held settings) : s.start.2.Held settings := by
  rcases start_cases h.matched with ⟨-, hs⟩ | ⟨hi, hp, -⟩
  · rw [hs]
    exact h
  · rw [start_of_idle hi]
    cases s.program with
    | ok program => exact ⟨matched_of_free rfl hp rfl, h.bridge, h.policy, by rintro ⟨⟩⟩
    | error message => exact ⟨matched_of_idle rfl rfl, h.bridge, h.policy, fun _ => ⟨rfl, rfl⟩⟩

theorem operate_held (h : s.Held settings) (o : Operation) : (s.operate o).Held settings := by
  cases o with
  | apply change =>
    cases change with
    | view => exact h
    | program w => exact ⟨matched_of_idle rfl rfl, h.bridge, h.policy, fun _ => ⟨rfl, rfl⟩⟩
  | start => exact start_held h
  | tick now => exact goOn_held drives_tick (fun _ => ⟨rfl, rfl⟩) h
  | runSlice now => exact goOn_held (drives_runSlice _) (fun _ => ⟨rfl, rfl⟩) h
  | reset => exact ⟨matched_of_idle rfl rfl, h.bridge, h.policy, fun _ => ⟨rfl, rfl⟩⟩
  | clearPause => exact ⟨h.matched, h.bridge, h.policy, h.ended⟩

theorem Held.callOn (h : s.Held settings) {p : PendingCall} (hp : s.pending = some p)
    (errand : Errand) : Held settings { s with pending := some { p with errand } } := by
  obtain ⟨hd, m, hm, hstatus⟩ := h.matched.awaited hp
  exact ⟨matched_of_awaited hm rfl hstatus hd, h.bridge, h.policy,
    fun ho => absurd (h.ended ho).2 (by simp [hp])⟩

end Session

namespace Scheduler

theorem start_session (s : Scheduler) (now : Nat) :
    (s.start now).2.session = s.session.start.2 := by
  rw [start]
  rcases s.session.start with ⟨_ | _, session⟩ <;> rfl

section Keeps

variable {P : Session → Prop} {s : Scheduler} (now : Nat)

theorem advanceStep_keeps (keeps : ∀ s, P s → P (s.operate (.tick now))) (units : Nat)
    (h : P s.session) : P (advanceStep now units s).session := by
  induction units generalizing s with
  | zero => exact h
  | succ units ih =>
    have htick := keeps s.session h
    simp only [advanceStep]
    rw [Session.operate] at htick
    rcases ht : s.session.tick now with ⟨_ | _ | _, session⟩
    all_goals
      simp only [ht] at htick ⊢
    · split
      · exact htick
      · exact ih htick
    · exact htick
    · exact htick

theorem advanceRun_keeps (keeps : ∀ s, P s → P (s.operate (.runSlice now))) (h : P s.session) :
    P (s.advanceRun now).session := by
  have hslice := keeps s.session h
  rw [Session.operate] at hslice
  rw [advanceRun]
  rcases ht : s.session.runSlice now with ⟨_ | _ | _, session⟩
  all_goals
    simp only [ht] at hslice ⊢
    exact hslice

variable (keeps : ∀ s o, P s → P (s.operate o))

include keeps

theorem handle_keeps (h : P s.session) (c : Command) : P (s.handle now c).session := by
  have hstart : P (s.start now).2.session := s.start_session now ▸ keeps _ .start h
  cases c with
  | edit change =>
    cases change with
    | view => exact h
    | program w => exact keeps _ (.apply (.program w)) (s.cancel_session.symm ▸ h)
  | reset => exact keeps _ .reset (s.cancel_session.symm ▸ h)
  | step =>
    simp only [handle]
    split
    · rcases ht : s.start now with ⟨_ | _, t⟩
      all_goals rw [ht] at hstart
      · exact hstart
      · exact advanceStep_keeps now (fun s => keeps s _) _ (keeps _ .clearPause hstart)
    · exact h
  | run =>
    simp only [handle]
    split
    · rcases ht : s.start now with ⟨_ | _, t⟩
      all_goals rw [ht] at hstart
      · exact hstart
      · exact advanceRun_keeps now (fun s => keeps s _) hstart
    · exact h

theorem resume_keeps (h : P s.session) (c : Continuation) : P (s.resume now c).session := by
  cases c with
  | step => exact advanceStep_keeps now (fun s => keeps s _) _ h
  | run => exact advanceRun_keeps now (fun s => keeps s _) h
  | cooldown => exact h

end Keeps

end Scheduler

namespace SchedulerTimeline

variable {σ : Type} {service : Service σ} {settings : Settings} {t : SchedulerTimeline σ}

theorem meet_held (h : t.scheduler.session.Held settings) (o : Occasion) :
    (t.meet service o).scheduler.session.Held settings := by
  have keeps : ∀ s o, Session.Held settings s → Session.Held settings (s.operate o) :=
    fun _ o h => Session.operate_held h o
  cases o with
  | command c =>
    simp only [meet, send]
    split
    · exact h
    · exact Scheduler.handle_keeps t.now keeps h c
  | timer =>
    simp only [meet]
    split
    · exact h
    · exact Scheduler.resume_keeps _ keeps h _
  | call =>
    simp only [meet, happen]
    split
    · exact h
    next p hp => exact h.callOn hp _
  | pass duration => exact h

variable (service) in
theorem held_after (settings : Settings) (prompter : Prompter) (api : σ) (occasions : List Occasion) :
    (after service settings prompter api occasions).scheduler.session.Held settings := by
  have hnew : (new settings prompter api).scheduler.session.Held settings :=
    Session.held_new settings prompter
  unfold after
  generalize new settings prompter api = t at hnew
  induction occasions generalizing t with
  | nil => exact hnew
  | cons o occasions ih => exact ih _ (meet_held hnew o)

end SchedulerTimeline

end ScopeBlocks
