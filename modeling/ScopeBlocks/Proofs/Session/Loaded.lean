import ScopeBlocks.Proofs.Session.Held

/-! What a session is loaded with: its program, what that was compiled to and the size of its slices. Only
a new program changes it, and then all of it that depends on the program. -/
namespace ScopeBlocks

open Script (Machine Step)

theorem Workspace.compile_empty : empty.compile = .ok .empty := by decide +kernel

def Change.program? : Change → Option Workspace
  | .view => none
  | .program w => some w

def Operation.program? : Operation → Option Workspace
  | .apply change => change.program?
  | _ => none

namespace Session

/-- What no run changes. -/
def load (s : Session) : Nat × Workspace × Except CompileError Compiled :=
  (s.sliceBudget, s.workspace, s.compiled)

/-- What holds at any time of a session with some settings and a program: what it has compiled is that
program. -/
structure Loaded (settings : Settings) (w : Workspace) (s : Session) : Prop where
  held : s.Held settings
  load : s.load = (max settings.sliceBudget 1, w, w.compile)

variable {settings : Settings} {s : Session} {w : Workspace} {now : Nat}

theorem loaded_new (settings : Settings) (prompter : Prompter) :
    (new settings prompter).Loaded settings .empty where
  held := held_new settings prompter
  load := by rw [Workspace.compile_empty]; rfl

namespace Loaded

variable (h : s.Loaded settings w)

include h

theorem sliceBudget : s.sliceBudget = max settings.sliceBudget 1 := congrArg (·.1) h.load

theorem workspace : s.workspace = w := congrArg (·.2.1) h.load

theorem compiled : s.compiled = w.compile := congrArg (·.2.2) h.load

end Loaded

theorem Settles.load {r : Option Progress × Session} (h : s.Settles r) : r.2.load = s.load := by
  cases h <;> rfl

theorem afterStep_load (step : Except Script.Error Step) :
    (s.afterStep now step).2.load = s.load := by
  cases step with
  | error => rfl
  | ok step => cases step <;> rfl

theorem goOn_load {run : Machine → Console → Except Script.Error Step × Machine × Console}
    {after : Session → Session} (ha : ∀ s, (after s).load = s.load) (h : s.Matched) :
    (s.goOn now run after).2.load = s.load := by
  have hgoes := goOn_goesOn run after now h
  generalize s.goOn now run after = r, s.called? run = call at hgoes
  cases hgoes with
  | stays hs => exact hs.load
  | idle => rfl
  | runs hs => exact (afterStep_load _).trans ((ha _).trans hs.load)

theorem start_load (h : s.Matched) : s.start.2.load = s.load := by
  rcases start_cases h with ⟨-, hs⟩ | ⟨hi, -⟩
  · rw [hs]
  · rw [start_of_idle hi]
    cases s.program <;> rfl

/-- Only a new program loads a session. -/
theorem operate_loaded (h : s.Loaded settings w) (o : Operation) :
    (s.operate o).Loaded settings (o.program?.getD w) := by
  refine ⟨operate_held h.held o, ?_⟩
  cases o with
  | apply change =>
    cases change with
    | view => exact h.load
    | program w =>
      have hbudget := h.sliceBudget
      simp only [operate, apply, reset, load, Operation.program?, Change.program?, Option.getD_some,
        hbudget]
  | start => exact (start_load h.held.matched).trans h.load
  | tick now => exact (goOn_load (fun _ => rfl) h.held.matched).trans h.load
  | runSlice now =>
    have cleared (s : Session) : s.clearPause.load = s.load := rfl
    exact (goOn_load cleared h.held.matched).trans h.load
  | reset | clearPause => exact h.load

theorem Loaded.callOn (h : s.Loaded settings w) {p : PendingCall} (hp : s.pending = some p)
    (errand : Errand) : Loaded settings w { s with pending := some { p with errand } } where
  held := h.held.callOn hp errand
  load := h.load

theorem Loaded.program_eq_ok (h : s.Loaded settings w) {program : Script.Program}
    (hp : s.program = .ok program) :
    ∃ c, w.compile = .ok c ∧ Script.parse c.code = .ok program := by
  unfold Session.program at hp
  rw [h.compiled] at hp
  split at hp
  next => cases hp
  next c hc =>
    refine ⟨c, hc, ?_⟩
    cases hread : Script.parse c.code with
    | error e =>
      rw [hread] at hp
      cases hp
    | ok read =>
      rw [hread] at hp
      cases hp
      rfl

end Session

namespace SchedulerTimeline

variable {σ : Type} {service : Service σ} {settings : Settings} {t : SchedulerTimeline σ}

theorem meet_loaded (h : ∃ w, t.scheduler.session.Loaded settings w) (o : Occasion) :
    ∃ w, (t.meet service o).scheduler.session.Loaded settings w := by
  have keeps : ∀ s o, (∃ w, Session.Loaded settings w s) → ∃ w, (s.operate o).Loaded settings w :=
    fun _ o ⟨_, h⟩ => ⟨_, Session.operate_loaded h o⟩
  obtain ⟨w, hw⟩ := h
  have hheld : (t.meet service o).scheduler.session.Held settings := meet_held hw.held o
  cases o with
  | command c =>
    simp only [meet, send]
    split
    · exact ⟨w, hw⟩
    · exact Scheduler.handle_keeps t.now keeps ⟨w, hw⟩ c
  | timer =>
    simp only [meet]
    split
    · exact ⟨w, hw⟩
    · exact Scheduler.resume_keeps _ keeps ⟨w, hw⟩ _
  | call =>
    refine ⟨w, hheld, ?_⟩
    simp only [meet, happen]
    split
    · exact hw.load
    · exact hw.load
  | pass duration => exact ⟨w, hw⟩

variable (service) in
theorem meet_closed (t : SchedulerTimeline σ) (o : Occasion) : (t.meet service o).closed = t.closed := by
  cases o with
  | command c =>
    cases hclosed : t.closed <;> simp [meet, send, hclosed, publish]
  | timer =>
    simp only [meet]
    split <;> rfl
  | call =>
    simp only [meet, happen]
    split <;> rfl
  | pass duration => rfl

variable (service) in
theorem loaded_after (settings : Settings) (prompter : Prompter) (api : σ)
    (occasions : List Occasion) :
    ∃ w, (after service settings prompter api occasions).scheduler.session.Loaded settings w := by
  have hnew : ∃ w, (new settings prompter api).scheduler.session.Loaded settings w :=
    ⟨_, Session.loaded_new settings prompter⟩
  unfold after
  generalize new settings prompter api = t at hnew
  induction occasions generalizing t with
  | nil => exact hnew
  | cons o occasions ih => exact ih _ (meet_loaded hnew o)

end SchedulerTimeline

end ScopeBlocks
