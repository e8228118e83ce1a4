import ScopeBlocks.Proofs.Session.Outstanding
import ScopeBlocks.Proofs.Workspace.TidyScript

/-! What holds of a session at any time, and what going on comes to. Only the mark of a block asks for a
pause, and a script makes no call in the unit of a mark: whoever waits has not been asked to pause. -/
namespace ScopeBlocks

open Script (Machine Step Tidy tidyAll Unseen Stands)

theorem Console.unseen_highlight : Unseen Console.host Console.highlight where
  print _ _ := rfl
  prompt _ _ _ := rfl

namespace Session

structure Sound (s : Session) : Prop where
  matched : s.Matched
  tidy : ∀ m, s.machine = some m → Tidy m.frames
  compiled : ∀ c, s.compiled = .ok c → ∀ program, Script.parse c.code = .ok program →
    tidyAll program = true
  current : s.isPaused = true → s.console.highlight.current.isSome = true
  inactive : s.machine = none → s.isPaused = false

variable {s : Session}

theorem sound_of_idle (hm : s.machine = none) (hp : s.pending = none)
    (hc : ∀ c, s.compiled = .ok c → ∀ program, Script.parse c.code = .ok program →
      tidyAll program = true) (hh : s.console.highlight = .none) : s.Sound where
  matched := matched_of_idle hm hp
  tidy m h := by
    rw [hm] at h
    cases h
  compiled := hc
  current h := by
    unfold isPaused at h
    rw [hh] at h
    cases h
  inactive _ := by
    unfold isPaused
    rw [hh]
    rfl

theorem sound_new (settings : Settings) (prompter : Prompter) : (new settings prompter).Sound :=
  sound_of_idle rfl rfl (fun _ hc _ hp => by cases hc; exact tidy_of_empty hp) rfl

theorem Sound.reset (h : s.Sound) : s.reset.Sound := sound_of_idle rfl rfl h.compiled rfl

theorem Sound.apply (h : s.Sound) (change : Change) : (s.apply change).Sound := by
  cases change with
  | view => exact h
  | program w => exact sound_of_idle rfl rfl (fun _ hc _ hp => w.tidy_of_compile hc hp) rfl

theorem Sound.clearPause (h : s.Sound) : s.clearPause.Sound where
  matched := h.matched
  tidy := h.tidy
  compiled := h.compiled
  current hp := by cases hp
  inactive _ := rfl

theorem Sound.callOn (h : s.Sound) {p : PendingCall} (hp : s.pending = some p) (errand : Errand) :
    Sound { s with pending := some { p with errand } } where
  matched := by
    obtain ⟨hd, m, hm, hstatus⟩ := h.matched.awaited hp
    exact matched_of_awaited hm rfl hstatus hd
  tidy := h.tidy
  compiled := h.compiled
  current := h.current
  inactive := h.inactive

theorem Sound.pending_none (h : s.Sound) (hs : s.isActive = false) : s.pending = none := by
  cases hp : s.pending with
  | none => rfl
  | some p =>
    obtain ⟨-, m, hm, -⟩ := h.matched.awaited hp
    simp [isActive, hm] at hs

theorem start_sound (h : s.Sound) : s.start.2.Sound ∧ s.start.1 = s.start.2.isActive ∧
    (s.isActive = false → s.start.2.isPaused = false ∧ s.start.2.pending = none) ∧
      (s.isActive = true → s.start.2 = s) := by
  cases hactive : s.isActive with
  | true =>
    have hs : s.start = (true, s) := by simp [start, hactive]
    rw [hs]
    exact ⟨h, hactive.symm, by simp, fun _ => rfl⟩
  | false =>
    have hp := h.pending_none hactive
    unfold start
    rw [hactive]
    simp only [Bool.false_eq_true, if_false]
    split
    next program hprogram =>
      have htidy : tidyAll program = true := by
        unfold Session.program at hprogram
        split at hprogram
        next => cases hprogram
        next compiled hc =>
          cases hread : Script.parse compiled.code with
          | error e =>
            rw [hread] at hprogram
            cases hprogram
          | ok read =>
            rw [hread] at hprogram
            cases hprogram
            exact h.compiled compiled hc _ hread
      refine ⟨⟨matched_of_free rfl hp rfl, ?_, h.compiled, ?_, ?_⟩, rfl, fun _ => ⟨rfl, hp⟩, ?_⟩
      · rintro m hm f hf
        cases hm
        rw [List.mem_singleton.1 hf]
        exact htidy
      · intro hpaused
        cases hpaused
      · intro hidle
        cases hidle
      · intro hrunning
        cases hrunning
    next =>
      refine ⟨sound_of_idle rfl rfl h.compiled rfl, rfl, fun _ => ⟨rfl, rfl⟩, fun hrunning => ?_⟩
      cases hrunning

/-- Settling leaves the highlight, the program and what is still to be run as they were. -/
theorem Settles.keeps {t : Session} (h : s.Settles (none, t)) :
    t.console.highlight = s.console.highlight ∧ t.compiled = s.compiled ∧
      ∀ m, t.machine = some m → ∃ m₀, s.machine = some m₀ ∧ m.frames = m₀.frames := by
  cases h with
  | idle => exact ⟨rfl, rfl, fun m hm => ⟨m, hm, rfl⟩⟩
  | resumed hp he hm =>
    refine ⟨rfl, rfl, ?_⟩
    rintro m hm'
    cases hm'
    exact ⟨_, hm, rfl⟩

/-- What going on leaves behind. -/
def WentOn (r : Progress × Session) : Prop :=
  r.2.Sound ∧ match r.1 with
    | .advanced => r.2.isActive = true ∧ r.2.pending = none
    | .waiting => r.2.isActive = true
    | .finished => r.2.isActive = false

theorem Settles.wentOn (h : s.Sound) {progress : Progress} {t : Session}
    (hs : s.Settles (some progress, t)) : WentOn (progress, t) := by
  cases hs with
  | @waiting p hp =>
    obtain ⟨-, m, hm, -⟩ := h.matched.awaited hp
    exact ⟨h, by simp [isActive, hm]⟩
  | ended => exact ⟨sound_of_idle rfl rfl h.compiled rfl, rfl⟩

variable {now : Nat}

/-- Where a step leaves a run active, a pause is one at a block. -/
def Located (s : Session) : Except Script.Error Step → Prop
  | .ok .continue | .ok (.suspend _) =>
    s.isPaused = true → s.console.highlight.current.isSome = true
  | _ => True

theorem afterStep_wentOn {m : Machine} {step : Except Script.Error Step} (hm : s.machine = some m)
    (hp : s.pending = none) (hstands : Stands m step) (htidy : Tidy m.frames)
    (hc : ∀ c, s.compiled = .ok c → ∀ program, Script.parse c.code = .ok program →
      tidyAll program = true)
    (hcurrent : s.Located step) : WentOn (s.afterStep now step) := by
  have hmatched := afterStep_matched now hm hp hstands
  have hframes : ∀ m', s.machine = some m' → Tidy m'.frames := by
    intro m' hm'
    rw [hm] at hm'
    cases hm'
    exact htidy
  have hactive : s.isActive = true := by simp [isActive, hm]
  have hinactive : s.machine = none → s.isPaused = false := by
    intro hnone
    rw [hm] at hnone
    cases hnone
  cases step with
  | error => exact ⟨sound_of_idle rfl rfl hc rfl, rfl⟩
  | ok step =>
    cases step with
    | «continue» => exact ⟨⟨hmatched, hframes, hc, hcurrent, hinactive⟩, hactive, hp⟩
    | suspend => exact ⟨⟨hmatched, hframes, hc, hcurrent, hinactive⟩, hactive⟩
    | pending => cases hstands
    | done => exact ⟨sound_of_idle rfl rfl hc rfl, rfl⟩

/-- What a unit shows of itself: nothing, or the block that it marks. -/
def Shown (before after : Console) : Except Script.Error Step → Prop
  | .ok .continue => after.highlight = before.highlight ∨
      ∃ id u, after.highlight = (Console.host.mark id u).highlight
  | .ok (.suspend _) => after.highlight = before.highlight
  | _ => True

section Shown

variable {console : Console} {step : Except Script.Error Step}

theorem Shown.located (h : Shown console s.console step)
    (hold : console.highlight.paused = true → console.highlight.current.isSome = true) :
    s.Located step := by
  cases step with
  | error => trivial
  | ok step =>
    cases step with
    | «continue» =>
      intro hpaused
      rcases h with hsame | ⟨id, u, hmarked⟩
      · exact hsame ▸ hold (hsame ▸ hpaused)
      · rw [hmarked]
        rfl
    | suspend => exact fun hpaused => (show s.console.highlight = _ from h) ▸ hold (h ▸ hpaused)
    | pending | done => trivial

theorem Shown.isPaused_of_waiting {m : Machine} (h : Shown console s.console step)
    (hstands : Stands m step) (hw : (s.afterStep now step).1 = .waiting) :
    (s.afterStep now step).2.isPaused = console.highlight.paused := by
  cases step with
  | error => cases hw
  | ok step =>
    cases step with
    | suspend => exact congrArg Highlight.paused h
    | pending => cases hstands
    | «continue» | done => cases hw

end Shown

/-- Going on by a unit, a session that waits then is as paused as it was. -/
theorem tick_wentOn (h : s.Sound) (now : Nat) : WentOn (s.tick now) ∧
    ((s.tick now).1 = .waiting → (s.tick now).2.isPaused = s.isPaused) := by
  have hgoes := goOn_goesOn (·.step Console.host ·) id now h.matched
  unfold tick
  generalize s.goOn now (·.step Console.host ·) id = r, s.called? _ = call at hgoes
  cases hgoes with
  | stays hs =>
    refine ⟨hs.wentOn h, fun _ => ?_⟩
    cases hs with
    | waiting => rfl
    | ended => contradiction
  | idle hm => exact ⟨⟨h, by simp [isActive, hm]⟩, nofun⟩
  | @runs t m hs hm hp free =>
    obtain ⟨hhighlight, hcompiled, hframes⟩ := hs.keeps
    obtain ⟨m₀, hm₀, hsame⟩ := hframes m hm
    have hstands := Machine.step_stands Console.host free t.console
    obtain ⟨htidy, hmarks⟩ := Machine.step_marks Console.unseen_highlight
      (hsame ▸ h.tidy m₀ hm₀) t.console
    rcases hstep : m.step Console.host t.console with ⟨step, m', c⟩
    rw [hstep] at hstands htidy hmarks
    have hshown : Shown t.console (t.driven id (step, m', c)).console step := by
      cases step with
      | error => trivial
      | ok step => cases step <;> exact hmarks
    have hold : t.console.highlight.paused = true → t.console.highlight.current.isSome = true := by
      rw [hhighlight]
      exact h.current
    refine ⟨afterStep_wentOn rfl hp hstands htidy (hcompiled ▸ h.compiled) (hshown.located hold),
      fun hw => ?_⟩
    rw [hshown.isPaused_of_waiting hstands hw, hhighlight]
    rfl

theorem afterStep_isPaused (h : s.isPaused = false) (step : Except Script.Error Step) :
    (s.afterStep now step).2.isPaused = false := by
  cases step with
  | error => rfl
  | ok step =>
    cases step with
    | done => rfl
    | «continue» | suspend | pending => exact h

theorem runSlice_wentOn (h : s.Sound) (hq : s.isPaused = false ∨ s.pending = none) (now : Nat) :
    WentOn (s.runSlice now) ∧ (s.runSlice now).2.isPaused = false := by
  have hgoes := goOn_goesOn (·.runBounded Console.host s.sliceBudget ·) clearPause now h.matched
  unfold runSlice
  generalize s.goOn now _ _ = r, s.called? _ = call at hgoes
  cases hgoes with
  | stays hs =>
    refine ⟨hs.wentOn h, ?_⟩
    cases hs with
    | waiting hp => exact hq.resolve_right (by simp [hp])
    | ended => rfl
  | idle hm => exact ⟨⟨h, by simp [isActive, hm]⟩, h.inactive hm⟩
  | @runs t m hs hm hp free =>
    obtain ⟨-, hcompiled, hframes⟩ := hs.keeps
    obtain ⟨m₀, hm₀, hsame⟩ := hframes m hm
    have hstands := Machine.runBounded_stands Console.host s.sliceBudget free t.console
    have htidy := Machine.runBounded_tidy Console.unseen_highlight s.sliceBudget
      (hsame ▸ h.tidy m₀ hm₀) t.console
    refine ⟨afterStep_wentOn rfl hp hstands htidy (hcompiled ▸ h.compiled) ?_,
      afterStep_isPaused rfl _⟩
    unfold Located
    split
    · intro hpaused
      cases hpaused
    · intro hpaused
      cases hpaused
    · trivial

end Session

end ScopeBlocks
