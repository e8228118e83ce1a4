import ScopeBlocks.Proofs.Session.Loaded
import ScopeBlocks.Proofs.Session.Pace
import ScopeBlocks.Proofs.Workspace.FollowedScript

/-! Stepping from block to block. Every step takes a run to the mark of its next block and no further, or to
its end where it marks no more, however long that takes. -/
namespace ScopeBlocks

open Script (Machine Step Followed Tidy followedAll Watched)

namespace Session

/-- What holds of a session while its run is stepped. -/
structure Stepwise (s : Session) : Prop where
  sound : s.Sound
  followed : ∀ m, s.machine = some m → Followed m.frames
  poised : ∀ m, s.machine = some m → m.Poised

/-- The run of a session is at the mark of a block. -/
structure AtMark (s : Session) (m : Machine) (id : String) (rest : List Script.Statement)
    (below : List Script.Frame) : Prop where
  machine : s.machine = some m
  pending : s.pending = none
  mark : m.AtMark id rest below

def marked (s : Session) (m : Machine) (id : String) (rest : List Script.Statement)
    (below : List Script.Frame) : Session :=
  { s with machine := some (m.marked rest below), console := Console.host.mark id s.console }

/-- What a unit comes to: the mark of a block, more of the run without a mark, or its end. -/
inductive Ticks (s : Session) : Progress × Session → List String → Prop
  | marks {t : Session} {m : Machine} {id : String} {rest : List Script.Statement}
      {below : List Script.Frame} (hs : s.settle = (none, t)) (hat : t.AtMark m id rest below) :
      Ticks s (.advanced, t.marked m id rest below) [id]
  | goesOn {progress : Progress} {t : Session} (hp : progress ≠ .finished)
      (paused : t.isPaused = s.isPaused) : Ticks s (progress, t) []
  | ends {t : Session} (ended : t.outcome.isSome = true) : Ticks s (.finished, t) []

variable {s t : Session} {m : Machine} {id : String} {rest : List Script.Statement}
  {below : List Script.Frame} (now : Nat)

theorem AtMark.tick (h : s.AtMark m id rest below) : s.tick now = (.advanced, s.marked m id rest below) := by
  rw [Session.tick, goOn_of_settled (settle_of_free h.pending) h.machine, h.mark.step]
  rfl

theorem AtMark.tickMarks (h : s.AtMark m id rest below) : s.tickMarks = [id] := by
  simp only [Session.tickMarks, Session.marks, settle_of_free h.pending, h.machine, h.mark.step]
  rfl

theorem Settles.stepwise (h : s.Stepwise) (hs : s.Settles (none, t)) (hm : t.machine = some m) :
    Tidy m.frames ∧ Followed m.frames ∧ m.Poised := by
  cases hs with
  | idle => exact ⟨h.sound.tidy m hm, h.followed m hm, h.poised m hm⟩
  | @resumed p m₀ hp he hm' hstatus v =>
    cases hm
    have htidy : Tidy m₀.frames := h.sound.tidy m₀ hm'
    have hfollowed : Followed m₀.frames := h.followed m₀ hm'
    exact ⟨htidy, hfollowed, (h.poised m₀ hm').resolve hstatus v⟩

theorem stepwise_of_idle (hs : s.Sound) (hm : s.machine = none) : s.Stepwise :=
  ⟨hs, by simp [hm], by simp [hm]⟩

theorem tick_of_settled (hs : s.settle = (none, t)) (hp : t.pending = none) :
    s.tick now = t.tick now ∧ s.tickMarks = t.tickMarks := by
  simp only [tick, goOn, tickMarks, marks, hs, settle_of_free hp, and_self]

theorem matched_of_settled (h : s.Matched) (hs : s.settle = (none, t)) : t.Matched := by
  have hsettles := settle_settles h
  rw [hs] at hsettles
  cases hsettles with
  | idle => exact h
  | resumed => exact matched_of_free rfl rfl (Machine.not_isSuspended_of_ready rfl)

theorem unseen_marks : Script.Unseen Console.host.watched Watched.marks where
  print _ _ := by
    simp [Script.Host.watched, Watched.note, Watched.marks, Script.Effect.marked?]
  prompt _ _ _ := by
    simp [Script.Host.watched, Watched.note, Watched.marks, Script.Effect.marked?]

theorem afterStep_ticks {step : Except Script.Error Step} (hp : t.isPaused = s.isPaused) :
    s.Ticks (t.afterStep now step) [] := by
  cases step with
  | error => exact .ends rfl
  | ok step =>
    cases step with
    | «continue» | suspend | pending => exact .goesOn (by simp) hp
    | done => exact .ends rfl

theorem afterStep_stepwise {step : Except Script.Error Step} (hs : (t.afterStep now step).2.Sound)
    (hf : ∀ m, t.machine = some m → Followed m.frames) (hp : ∀ m, t.machine = some m → m.Poised) :
    (t.afterStep now step).2.Stepwise := by
  cases step with
  | error => exact stepwise_of_idle hs rfl
  | ok step =>
    cases step with
    | «continue» | suspend | pending => exact ⟨hs, hf, hp⟩
    | done => exact stepwise_of_idle hs rfl

theorem tick_ticks (h : s.Stepwise) (hi : s.isActive = true) :
    s.Ticks (s.tick now) s.tickMarks ∧ (s.tick now).2.Stepwise := by
  have hsound := (tick_wentOn h.sound now).1.1
  have hsettles := settle_settles h.sound.matched
  rcases hs : s.settle with ⟨_ | progress, t⟩
  · rw [hs] at hsettles
    have hp := settle_pending h.sound.matched hs
    obtain ⟨m, hm⟩ : ∃ m, t.machine = some m := by
      cases hsettles with
      | idle => exact Option.isSome_iff_exists.1 hi
      | resumed => exact ⟨_, rfl⟩
    obtain ⟨htidy, hfollowed, hpoised⟩ := hsettles.stepwise h hm
    obtain ⟨htick, hmarks⟩ := tick_of_settled now hs hp
    rw [htick] at hsound ⊢
    rw [hmarks]
    rcases m.marks_or_keeps htidy hfollowed hpoised with ⟨id, rest, below, hmark⟩ | ⟨hkeeps, hnext⟩
    · have hat : t.AtMark m id rest below := ⟨hm, hp, hmark⟩
      rw [hat.tick] at hsound ⊢
      rw [hat.tickMarks]
      refine ⟨.marks hs hat, hsound, ?_, ?_⟩
      · rintro _ ⟨⟩
        exact hmark.followed hfollowed
      · rintro _ ⟨⟩
        exact Machine.poised_of_free hmark.recorded (Machine.not_isSuspended_of_ready hmark.status)
    · have hstep := Script.abides_followed.step Console.host hfollowed t.console
      have hpaused := hkeeps Console.unseen_highlight t.console
      have hnone : t.tickMarks = [] := by
        simp only [tickMarks, marks, settle_of_free hp, hm]
        exact hkeeps unseen_marks ⟨t.console, []⟩
      have hgoes : t.goOn now (·.step Console.host ·) id = _ :=
        goOn_of_settled (settle_of_free hp) hm
      rw [tick, hgoes] at hsound ⊢
      rw [hnone]
      constructor
      · refine afterStep_ticks now ?_
        obtain ⟨hhighlight, -⟩ := hsettles.keeps
        show (m.step Console.host t.console).2.2.highlight.paused = s.console.highlight.paused
        rw [hpaused, hhighlight]
      · refine afterStep_stepwise now hsound ?_ ?_
        · rintro _ ⟨⟩
          exact hstep.1
        · rintro _ ⟨⟩
          exact hnext Console.host t.console
  · rw [hs] at hsettles
    have htick : s.tick now = (progress, t) := by simp only [tick, goOn, hs]
    have hnone : s.tickMarks = [] := by simp only [tickMarks, marks, hs]
    rw [htick] at hsound ⊢
    rw [hnone]
    cases hsettles with
    | waiting => exact ⟨.goesOn (by simp) rfl, h⟩
    | ended => exact ⟨.ends rfl, stepwise_of_idle hsound rfl⟩

/-- A run that begins is stepped from the first statement of a script in which every mark is followed. -/
theorem start_stepwise {settings : Settings} {w : Workspace} (hs : s.Sound) (h : s.Loaded settings w)
    (hi : s.isActive = false) : s.start.2.Stepwise := by
  have hsound := (start_sound hs).1
  rw [start_of_idle hi] at hsound ⊢
  cases hprogram : s.program with
  | error message => exact stepwise_of_idle (hprogram ▸ hsound) rfl
  | ok program =>
    rw [hprogram] at hsound
    refine ⟨hsound, ?_, ?_⟩
    · rintro _ ⟨⟩
      obtain ⟨c, hc, hparse⟩ := h.program_eq_ok hprogram
      intro f hf
      rw [List.mem_singleton.1 hf]
      exact w.followed_of_compile hc hparse
    · rintro _ ⟨⟩
      exact Machine.poised_ofProgram program

theorem start_outcome (h : s.start.1 = false) : s.start.2.outcome.isSome = true := by
  cases hi : s.isActive with
  | true => simp [start, hi] at h
  | false =>
    rw [start_of_idle hi] at h ⊢
    cases hprogram : s.program with
    | ok program =>
      rw [hprogram] at h
      cases h
    | error message => rfl

section Course

variable {σ : Type} (service : Service σ) (api : σ) (marks : List String) (exchanges : List Exchange)

/-- Where the awaited call does not keep a run from going on, a unit takes it further. -/
theorem next_leads_tick (h : s.Matched)
    (hp : ∀ p, s.pending = some p → p.errand.isSettled = true) :
    ((s.course api marks exchanges).next service).Leads service
      ((s.tick now).2.course api (marks ++ s.tickMarks) exchanges) := by
  cases hpending : s.pending with
  | none =>
    obtain ⟨htick, hmarks⟩ := tick_gist hpending now
    simp only [Course.next, course, pending_gist, hpending, Option.map_none, htick, hmarks]
    exact .refl
  | some p =>
    rw [next_of_settled service api marks exchanges hpending (hp p hpending)]
    rcases hs : s.settle with ⟨_ | progress, t⟩
    · have ht := settle_pending h hs
      obtain ⟨htick, hmarks⟩ := tick_of_settled now hs ht
      have hmatched := matched_of_settled h hs
      rw [htick, hmarks]
      exact leads_tick service api marks exchanges hmatched now
    · have htick : s.tick now = (progress, t) := by simp only [tick, goOn, hs]
      have hnone : s.tickMarks = [] := by simp only [tickMarks, Session.marks, hs]
      rw [htick, hnone, List.append_nil]
      exact .refl

end Course

end Session

namespace Scheduler

open Session (Stepwise AtMark)

variable {σ : Type} (service : Service σ) (api : σ) (marks : List String) (exchanges : List Exchange)
  (now : Nat)

/-- Where stepping a run comes to: the mark of its next block, marked and no more; its end; or neither yet.
With it go the blocks that have been marked. -/
inductive StepsTo (s : Session) (s' : Scheduler) : List String → Prop
  | block {t : Session} {m : Machine} {id : String} {rest : List Script.Statement}
      {below : List Script.Frame} (mode : s'.mode = .paused)
      (leads : (s.course api marks exchanges).Leads service (t.course api marks exchanges))
      (hat : t.AtMark m id rest below) (session : s'.session = t.marked m id rest below) :
      StepsTo s s' [id]
  | goesOn (mode : s'.mode = .stepping) : StepsTo s s' []
  | ends (ended : s'.session.outcome.isSome = true) : StepsTo s s' []

variable {s : Scheduler}

theorem advanceStep_stepsTo (units : Nat) (h : s.session.Stepwise) (hi : s.session.isActive = true)
    (hq : s.session.isPaused = false) (hmode : s.mode = .stepping) :
    StepsTo service api marks exchanges s.session (advanceStep now units s)
      (s.session.stepMarks now units) ∧ (advanceStep now units s).session.Stepwise := by
  induction units generalizing s with
  | zero => exact ⟨.goesOn hmode, h⟩
  | succ units ih =>
    obtain ⟨hticks, hstepwise⟩ := Session.tick_ticks now h hi
    obtain ⟨⟨-, hwent⟩, -⟩ := Session.tick_wentOn h.sound now
    have hleads := Session.leads_tick service api marks exchanges h.sound.matched now
    simp only [advanceStep, Session.stepMarks]
    rcases htick : s.session.tick now with ⟨progress, session⟩
    generalize s.session.tickMarks = new at hticks hleads
    rw [htick] at hticks hstepwise hwent hleads
    cases hticks with
    | @marks t m id rest below hs hat =>
      have hpaused : (t.marked m id rest below).isPaused = true := rfl
      simp only [hpaused, if_true, List.append_nil]
      have hsettle := Session.leads_settle service api marks exchanges s.session
      rw [hs] at hsettle
      exact ⟨.block rfl hsettle hat rfl, hstepwise⟩
    | goesOn hp hpaused =>
      cases progress with
      | finished => exact absurd rfl hp
      | waiting => exact ⟨.goesOn hmode, hstepwise⟩
      | advanced =>
        have hquiet : session.isPaused = false := hpaused.trans hq
        simp only [hquiet, Bool.false_eq_true, if_false, List.nil_append]
        -- a unit that marks no block pauses nothing, so the slice goes on
        obtain ⟨hsteps, hlast⟩ := ih (s := { s with session }) hstepwise hwent.1 hquiet hmode
        refine ⟨?_, hlast⟩
        rw [List.append_nil] at hleads
        generalize session.stepMarks now units = new, advanceStep now units { s with session } = s'
          at hsteps ⊢
        cases hsteps with
        | block mode leads hat session => exact .block mode (hleads.trans leads) hat session
        | goesOn mode => exact .goesOn mode
        | ends ended => exact .ends ended
    | ends ended => exact ⟨.ends ended, hstepwise⟩

theorem next_leads_advanceStep {units : Nat} (hunits : 0 < units) (h : s.session.Matched)
    (hp : ∀ p, s.session.pending = some p → p.errand.isSettled = true) :
    ((s.session.course api marks exchanges).next service).Leads service
      ((advanceStep now units s).session.course api (marks ++ s.session.stepMarks now units)
        exchanges) := by
  obtain ⟨units, rfl⟩ := Nat.exists_eq_add_of_lt hunits
  rw [Nat.zero_add]
  have htick := Session.next_leads_tick now service api marks exchanges h hp
  have hmatched := Session.operate_matched h (.tick now)
  rw [Session.operate] at hmatched
  simp only [advanceStep, Session.stepMarks]
  rcases ht : s.session.tick now with ⟨_ | _ | _, session⟩
  all_goals
    simp only [ht] at htick hmatched ⊢
  · split
    · rw [List.append_nil]
      exact htick
    · rw [← List.append_assoc]
      exact htick.trans (advanceStep_leads (s := { s with session }) now units hmatched)
  · exact htick
  · exact htick

theorem handle_stepsTo (hc : s.controls = true) (h : s.session.start.2.Stepwise)
    (hi : s.session.start.1 = s.session.start.2.isActive) :
    StepsTo service api marks exchanges s.session.start.2 (s.handle now .step)
      (s.handleMarks now .step) ∧ (s.handle now .step).session.Stepwise := by
  have houtcome : s.session.start.1 = false → s.session.start.2.outcome.isSome = true :=
    Session.start_outcome
  simp only [handle, handleMarks, hc, if_true, start]
  rcases hstart : s.session.start with ⟨_ | _, session⟩
  all_goals
    rw [hstart] at h hi houtcome
    simp only [if_true, Bool.false_eq_true, if_false]
  · exact ⟨.ends (houtcome rfl), h⟩
  · have hclear : session.clearPause.Stepwise := ⟨h.sound.clearPause, h.followed, h.poised⟩
    obtain ⟨hsteps, hlast⟩ := advanceStep_stepsTo service api marks exchanges now
      (s := { s with controls := false, session := session.clearPause, mode := .stepping })
      session.sliceBudget hclear hi.symm rfl rfl
    refine ⟨?_, hlast⟩
    -- pauses have no part in the course of a run
    generalize Session.stepMarks now session.sliceBudget session.clearPause = new at hsteps
    cases hsteps with
    | block mode leads hat session => exact .block mode leads hat session
    | goesOn mode => exact .goesOn mode
    | ends ended => exact .ends ended

end Scheduler

end ScopeBlocks
