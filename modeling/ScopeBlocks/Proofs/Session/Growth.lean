import ScopeBlocks.Proofs.Session.Accounting
import ScopeBlocks.Proofs.Session.Cancellation

/-! A run only adds to its transcript, and it is over just with an outcome. So what is shown of a run at
any two times are beginnings of one transcript. -/
namespace ScopeBlocks

open Script (Machine Step Effect Watched)

namespace Session

/-- A run that is active or over, with some lines at the head of its transcript. -/
structure Carries (lines : List String) (s : Session) : Prop where
  lines : lines <+: s.console.transcript
  live : s.isActive = true ∨ s.outcome.isSome = true

variable {settings : Settings} {s t : Session} {lines : List String} {now : Nat}

theorem Takes.grows {new : List Entry} {r : Option Progress × Session} (h : s.Takes new r) :
    s.console.transcript <+: r.2.console.transcript := by
  cases h with
  | idle | waiting | completed => exact List.prefix_rfl
  | failed => exact List.prefix_append _ _
  | aborted => exact (List.prefix_append _ _).trans (List.prefix_append _ _)

theorem afterStep_grows (step : Except Script.Error Step) :
    s.console.transcript <+: (s.afterStep now step).2.console.transcript := by
  cases step with
  | error => exact List.prefix_append _ _
  | ok step =>
    cases step with
    | «continue» | suspend | pending => exact List.prefix_rfl
    | done => exact List.prefix_append _ _

section

variable {run : Machine → Console → Except Script.Error Step × Machine × Console}
  {watched : Machine → Watched Console → Except Script.Error Step × Machine × Watched Console}
  {after : Session → Session}

theorem goOn_grows (hw : Watches run watched) (hafter : ∀ s : Session, s.Kept (after s))
    (h : s.Matched) : s.console.transcript <+: (s.goOn now run after).2.console.transcript := by
  have htakes := (settle_takes h).grows
  unfold goOn
  rcases hs : s.settle with ⟨_ | progress, t⟩
  all_goals rw [hs] at htakes
  · dsimp only
    cases hm : t.machine with
    | none => exact htakes
    | some m =>
      have hdriven : t.console.transcript <+: (run m t.console).2.2.transcript := by
        rw [hw.run m t.console]
        exact ⟨_, (hw.transcript m t.console).symm⟩
      obtain ⟨-, -, -, hlines⟩ :=
        hafter { t with machine := some (run m t.console).2.1, console := (run m t.console).2.2 }
      exact htakes.trans (hdriven.trans (hlines ▸ afterStep_grows _))
  · exact htakes

theorem goOn_carries (hw : Watches run watched) (hafter : ∀ s : Session, s.Kept (after s))
    (hd : Drives run after) (hh : s.Held settings) (h : s.Carries lines) :
    (s.goOn now run after).2.Carries lines := by
  refine ⟨h.lines.trans (goOn_grows hw hafter hh.matched), ?_⟩
  cases ha : s.isActive with
  | true =>
    cases hi : (s.goOn now run after).2.isActive with
    | true => exact .inl rfl
    | false => exact .inr (goOn_over hd hh.matched ha hi)
  | false =>
    have hm : s.machine = none := by simpa [isActive] using ha
    have hsame : s.goOn now run after = (.finished, s) := by
      simp only [goOn, settle, hh.pending_none ha, hm]
    rw [hsame]
    exact h.live

end

theorem tick_carries (hh : s.Held settings) (h : s.Carries lines) :
    (s.tick now).2.Carries lines :=
  goOn_carries watches_step (fun s => s.kept_self) drives_tick hh h

theorem runSlice_carries (hh : s.Held settings) (h : s.Carries lines) :
    (s.runSlice now).2.Carries lines :=
  goOn_carries (watches_runBounded _) (fun s => s.clearPause_kept) (drives_runSlice _) hh h

theorem start_carries (h : s.isActive = true ∨ s.console.transcript = []) :
    s.start.2.Carries s.console.transcript := by
  cases ha : s.isActive with
  | true =>
    have hsame : s.start = (true, s) := by simp [start, ha]
    rw [hsame]
    exact ⟨List.prefix_rfl, .inl ha⟩
  | false =>
    rw [h.resolve_left (by simp [ha]), start_of_idle ha]
    refine ⟨List.nil_prefix, ?_⟩
    cases s.program with
    | ok => exact .inl rfl
    | error => exact .inr rfl

end Session

namespace Scheduler

variable {settings : Settings} {s : Scheduler} {lines : List String}

theorem advanceStep_carries (now units : Nat) (hh : s.session.Held settings)
    (h : s.session.Carries lines) : (advanceStep now units s).session.Carries lines :=
  (advanceStep_keeps (P := fun s => s.Held settings ∧ s.Carries lines) now
    (fun _ hs => ⟨Session.operate_held hs.1 (.tick now), Session.tick_carries hs.1 hs.2⟩) units
    ⟨hh, h⟩).2

theorem advanceRun_carries (now : Nat) (hh : s.session.Held settings)
    (h : s.session.Carries lines) : (s.advanceRun now).session.Carries lines :=
  (advanceRun_keeps (P := fun s => s.Held settings ∧ s.Carries lines) now
    (fun _ hs => ⟨Session.operate_held hs.1 (.runSlice now), Session.runSlice_carries hs.1 hs.2⟩)
    ⟨hh, h⟩).2

/-- After a command to step or to run that is taken, a run is under way that has kept its lines. -/
theorem handle_carries (hh : s.session.Held settings) (hc : s.controls = true)
    (h : s.session.isActive = true ∨ s.session.console.transcript = []) (now : Nat) {c : Command}
    (hcommand : c = .step ∨ c = .run) :
    (s.handle now c).session.Carries s.session.console.transcript := by
  have hstart := Session.start_carries h
  have hheld := Session.start_held hh
  rw [← s.start_session now] at hstart hheld
  rcases hcommand with rfl | rfl
  all_goals
    simp only [handle, hc, if_true]
    rcases ht : s.start now with ⟨_ | _, t⟩
    all_goals rw [ht] at hstart hheld
  · exact hstart
  · exact advanceStep_carries now _ (Session.operate_held hheld .clearPause) ⟨hstart.lines, hstart.live⟩
  · exact hstart
  · exact advanceRun_carries now hheld hstart

theorem resume_carries (hh : s.session.Held settings) (h : s.session.Carries lines) (now : Nat)
    (c : Continuation) : (s.resume now c).session.Carries lines := by
  cases c with
  | step => exact advanceStep_carries now _ hh h
  | run => exact advanceRun_carries now hh h
  | cooldown => exact h

end Scheduler

end ScopeBlocks
