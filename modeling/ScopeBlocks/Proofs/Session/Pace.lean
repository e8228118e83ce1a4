import ScopeBlocks.Device.Prepared
import ScopeBlocks.Proofs.Session.Course
import ScopeBlocks.Proofs.Session.Held

/-! The pace of a run. Steps and runs in any mixture, slices of any size and calls that are polled at any
distance take a run along one course, so that it comes to the same end. -/
namespace ScopeBlocks

open Script (Machine Step)

namespace Session

/-- The course of a run from its beginning depends on the program and the answers to come only. -/
theorem start_gist {s t : Session} (hs : s.isActive = false) (ht : t.isActive = false)
    (hps : s.pending = none) (hpt : t.pending = none) (bridge : s.bridge.gist = t.bridge.gist)
    (policy : s.policy = t.policy) (program : s.program = t.program)
    (prompter : s.console.prompter = t.console.prompter) : s.start.2.gist = t.start.2.gist := by
  rw [start_of_idle hs, start_of_idle ht, program]
  cases t.program with
  | ok program =>
    simp only [gist, cleared, Console.gist, bridge, policy, prompter, hps, hpt]
  | error message =>
    simp only [gist, finish, reset, cleared, Console.gist, Console.log, bridge, policy, prompter]

def stepMarks (now : Nat) : Nat → Session → List String
  | 0, _ => []
  | units + 1, s =>
    match s.tick now with
    | (.advanced, t) => s.tickMarks ++ if t.isPaused then [] else stepMarks now units t
    | _ => s.tickMarks

end Session

namespace Scheduler

def handleMarks (s : Scheduler) (now : Nat) : Command → List String
  | .edit _ | .reset => []
  | .step =>
    if s.controls then
      match s.start now with
      | (true, s) => s.session.clearPause.stepMarks now s.session.sliceBudget
      | (false, _) => []
    else []
  | .run =>
    if s.controls then
      match s.start now with
      | (true, s) => s.session.sliceMarks
      | (false, _) => []
    else []

def resumeMarks (s : Scheduler) (now : Nat) : Continuation → List String
  | .step => s.session.stepMarks now s.session.sliceBudget
  | .run => s.session.sliceMarks
  | .cooldown => []

section Leads

variable {σ : Type} {service : Service σ} {api : σ} {marks : List String} {exchanges : List Exchange}
  {s : Scheduler} (now : Nat)

theorem advanceStep_leads (units : Nat) (h : s.session.Matched) :
    (s.session.course api marks exchanges).Leads service
      ((advanceStep now units s).session.course api (marks ++ s.session.stepMarks now units)
        exchanges) := by
  induction units generalizing s marks with
  | zero =>
    rw [Session.stepMarks, List.append_nil]
    exact .refl
  | succ units ih =>
    have htick := Session.leads_tick service api marks exchanges h now
    have hmatched := Session.operate_matched h (.tick now)
    rw [Session.operate] at hmatched
    simp only [advanceStep, Session.stepMarks]
    rcases ht : s.session.tick now with ⟨_ | _ | _, session⟩
    all_goals
      simp only [ht] at htick hmatched ⊢
    · split
      · rw [List.append_nil]
        exact htick
      · rw [← List.append_assoc]
        exact htick.trans (ih (s := { s with session }) hmatched)
    · exact htick
    · exact htick

theorem advanceRun_leads (h : s.session.Matched) : (s.session.course api marks exchanges).Leads service
    ((s.advanceRun now).session.course api (marks ++ s.session.sliceMarks) exchanges) := by
  have hslice := Session.leads_slice service api marks exchanges h now
  rw [advanceRun]
  rcases ht : s.session.runSlice now with ⟨_ | _ | _, session⟩
  all_goals
    simp only [ht] at hslice ⊢
    exact hslice

theorem handle_leads (h : s.session.Matched) (hc : s.controls = true) {c : Command}
    (hcommand : c = .step ∨ c = .run) :
    (s.session.start.2.course api marks exchanges).Leads service
      ((s.handle now c).session.course api (marks ++ s.handleMarks now c) exchanges) := by
  have hmatched := Session.operate_matched h .start
  rw [Session.operate] at hmatched
  rw [← s.start_session now] at hmatched ⊢
  rcases hcommand with rfl | rfl
  all_goals
    simp only [handle, handleMarks, hc, if_true]
    rcases hstart : s.start now with ⟨_ | _, t⟩
    all_goals
      simp only [hstart, List.append_nil] at hmatched ⊢
  · exact .refl
  · exact advanceStep_leads
      (s := { t with session := t.session.clearPause, mode := .stepping }) now _ hmatched
  · exact .refl
  · exact advanceRun_leads (s := { t with mode := .running }) now hmatched

theorem resume_leads (h : s.session.Matched) (c : Continuation) :
    (s.session.course api marks exchanges).Leads service
      ((s.resume now c).session.course api (marks ++ s.resumeMarks now c) exchanges) := by
  cases c with
  | step => exact advanceStep_leads (s := { s with next := none }) now _ h
  | run => exact advanceRun_leads (s := { s with next := none }) now h
  | cooldown =>
    rw [resumeMarks, List.append_nil]
    exact .refl

end Leads

end Scheduler

/-- Whether an occasion may belong to a run: a reset ends it, as a change of the program does. -/
def Occasion.keepsRun : Occasion → Bool
  | .command .reset | .command (.edit (.program _)) => false
  | _ => true

namespace SchedulerTimeline

variable {σ : Type} (service : Service σ)

def marked (t : SchedulerTimeline σ) : Occasion → List String
  | .command c => if t.closed then [] else t.scheduler.handleMarks t.now c
  | .timer =>
    match t.scheduler.next with
    | none => []
    | some (c, due) => t.scheduler.resumeMarks (max t.now due) c
  | .call | .pass _ => []

def exchanged (t : SchedulerTimeline σ) : Occasion → List Exchange
  | .call =>
    match t.scheduler.session.pending with
    | none => []
    | some p => (t.scheduler.session.bridge.fire service.noting p.errand (t.api, [])).2.2
  | _ => []

def begins (t : SchedulerTimeline σ) : Occasion → Bool
  | .command .step | .command .run =>
    !t.closed && t.scheduler.controls && !t.scheduler.session.isActive
  | _ => false

/-- A run from its beginning on, whatever happens that is no reset, no change of the program and no
beginning of another run, with the marked blocks and the exchanges with the service. -/
inductive Runs (t : SchedulerTimeline σ) :
    List String → List Exchange → SchedulerTimeline σ → Prop
  | begun {o : Occasion} (h : t.begins o = true) : Runs t (t.marked o) [] (t.meet service o)
  | goesOn {marks : List String} {exchanges : List Exchange} {u : SchedulerTimeline σ} {o : Occasion}
      (run : Runs t marks exchanges u) (keeps : o.keepsRun = true) (same : u.begins o = false) :
      Runs t (marks ++ u.marked o) (exchanges ++ u.exchanged service o) (u.meet service o)

def course (t : SchedulerTimeline σ) (marks : List String) (exchanges : List Exchange) : Course σ :=
  t.scheduler.session.course t.api marks exchanges

variable {service} {settings : Settings} {t u : SchedulerTimeline σ}

theorem meet_leads_command (h : t.scheduler.session.Matched) {c : Command}
    (keeps : (Occasion.command c).keepsRun = true) (same : t.begins (.command c) = false)
    (marks : List String) (exchanges : List Exchange) : (t.course marks exchanges).Leads service
      ((t.meet service (.command c)).course (marks ++ t.marked (.command c)) exchanges) := by
  simp only [meet, send, marked]
  by_cases hclosed : t.closed = true
  · simp only [hclosed, if_true, Option.getD_none, List.append_nil]
    exact .refl
  · simp only [hclosed, if_false, Bool.false_eq_true, Option.getD_some]
    cases c with
    | reset => cases keeps
    | edit change =>
      cases change with
      | program w => cases keeps
      | view =>
        simp only [Scheduler.handleMarks, List.append_nil]
        exact .refl
    | step | run =>
      by_cases hc : t.scheduler.controls = true
      · have hactive : t.scheduler.session.isActive = true := by
          simpa [begins, hclosed, hc] using same
        have hstart : t.course marks exchanges =
            t.scheduler.session.start.2.course t.api marks exchanges := by
          simp only [course, Session.start, hactive, if_true]
        rw [hstart]
        exact Scheduler.handle_leads t.now h hc (by simp)
      · simp only [Scheduler.handle, Scheduler.handleMarks, hc, if_false, Bool.false_eq_true,
          List.append_nil]
        exact .refl

variable (service) in
theorem meet_leads_call (t : SchedulerTimeline σ) (marks : List String) (exchanges : List Exchange) :
    (t.course marks exchanges).Leads service
      ((t.meet service .call).course marks (exchanges ++ t.exchanged service .call)) := by
  simp only [meet, happen, exchanged]
  cases hp : t.scheduler.session.pending with
  | none =>
    simp only [List.append_nil]
    exact .refl
  | some p =>
    obtain ⟨herrand, hapi⟩ := t.scheduler.session.bridge.fire_noting service p.errand t.api []
    have hcall := Session.leads_call service t.api marks exchanges hp
    rw [herrand, hapi] at hcall
    exact hcall

/-- An occasion that neither begins nor ends a run takes it along its course. -/
theorem meet_leads (h : t.scheduler.session.Matched) {o : Occasion} (keeps : o.keepsRun = true)
    (same : t.begins o = false) (marks : List String) (exchanges : List Exchange) :
    (t.course marks exchanges).Leads service
      ((t.meet service o).course (marks ++ t.marked o) (exchanges ++ t.exchanged service o)) := by
  cases o with
  | command c =>
    simp only [exchanged, List.append_nil]
    exact meet_leads_command h keeps same marks exchanges
  | timer =>
    simp only [meet, marked, exchanged, List.append_nil]
    cases hn : t.scheduler.next with
    | none =>
      simp only [List.append_nil]
      exact .refl
    | some next => exact Scheduler.resume_leads _ h next.1
  | call =>
    simp only [marked, List.append_nil]
    exact meet_leads_call service t marks exchanges
  | pass duration =>
    simp only [marked, exchanged, List.append_nil]
    exact .refl

theorem begins_cases {o : Occasion} (h : t.begins o = true) :
    ∃ c, o = .command c ∧ (c = .step ∨ c = .run) ∧ t.closed = false ∧
      t.scheduler.controls = true ∧ t.scheduler.session.isActive = false := by
  unfold begins at h
  split at h
  · simp only [Bool.and_eq_true, Bool.not_eq_true'] at h
    exact ⟨.step, rfl, .inl rfl, h.1.1, h.1.2, h.2⟩
  · simp only [Bool.and_eq_true, Bool.not_eq_true'] at h
    exact ⟨.run, rfl, .inr rfl, h.1.1, h.1.2, h.2⟩
  · cases h

namespace Runs

variable {marks : List String} {exchanges : List Exchange}

theorem idle (run : t.Runs service marks exchanges u) : t.scheduler.session.isActive = false := by
  induction run with
  | begun h =>
    obtain ⟨c, -, -, -, -, hidle⟩ := begins_cases h
    exact hidle
  | goesOn _ _ _ ih => exact ih

theorem held (run : t.Runs service marks exchanges u) (h : t.scheduler.session.Held settings) :
    u.scheduler.session.Held settings := by
  induction run with
  | begun => exact meet_held h _
  | goesOn _ _ _ ih => exact meet_held ih _

/-- A run goes along the course that begins where it is started. -/
theorem leads (run : t.Runs service marks exchanges u) (h : t.scheduler.session.Held settings) :
    (t.scheduler.session.start.2.course t.api [] []).Leads service (u.course marks exchanges) := by
  induction run with
  | begun hbegins =>
    obtain ⟨c, rfl, hcommand, hclosed, hcontrols, -⟩ := begins_cases hbegins
    have hleads : (t.scheduler.session.start.2.course t.api [] []).Leads service _ :=
      Scheduler.handle_leads t.now h.matched hcontrols hcommand
    simpa [meet, send, marked, hclosed, course, publish] using hleads
  | goesOn run keeps same ih => exact ih.trans (meet_leads (run.held h).matched keeps same _ _)

theorem current (run : t.Runs service marks exchanges u) (h : t.scheduler.session.Held settings)
    (active : u.scheduler.session.isActive = true) :
    u.scheduler.session.console.highlight.current = marks.getLast? := by
  have hstart : (t.scheduler.session.start.2.course t.api [] []).Shown := by
    rw [Session.start_of_idle run.idle]
    intro hactive
    cases hprogram : t.scheduler.session.program with
    | ok program => rfl
    | error message =>
      rw [hprogram] at hactive
      cases hactive
  exact (run.leads h).shown hstart active

/-- With its outcome a run has come to the end of its course. -/
theorem ends (run : t.Runs service marks exchanges u) (h : t.scheduler.session.Held settings)
    (ended : u.scheduler.session.outcome.isSome = true) :
    (u.course marks exchanges).next service = u.course marks exchanges := by
  obtain ⟨hm, hp⟩ := (run.held h).ended ended
  exact Session.course_next service u.api marks exchanges hm hp

end Runs

theorem happen_now (t : SchedulerTimeline σ) (h : Happening) (due : Nat) :
    (t.happen service h due).now = max t.now due := by
  cases h with
  | call =>
    simp only [happen]
    split <;> rfl
  | continuation c => rfl

variable (service) in
theorem happen_next {h : Happening} {due : Nat} (hn : u.next? = some (h, due)) :
    u.happen service h due = u.meet service .timer ∨
      u.happen service h due = (u.meet service (.pass (due - u.now))).meet service .call := by
  cases h with
  | call =>
    have hnow : u.now + (due - u.now) = max u.now due := by omega
    right
    simp only [meet, happen, hnow, Nat.max_self]
  | continuation c =>
    have htimer : u.scheduler.next = some (c, due) := by
      rw [next?] at hn
      split at hn
      · cases hn
      · cases hn
      next h =>
        cases hn
        exact h
      next h =>
        split at hn
        · cases hn
        · cases hn
          exact h
    left
    simp only [meet, htimer]

namespace Runs

theorem reachWithin {marks : List String} {exchanges : List Exchange} {time : Nat}
    (run : t.Runs service marks exchanges u) (h : u.now ≤ time) (goal : Snapshot → Bool) (steps : Nat) :
    ∃ marks exchanges, t.Runs service marks exchanges (u.reachWithin service time goal steps).2 := by
  induction steps generalizing u marks exchanges with
  | zero => exact ⟨_, _, run⟩
  | succ steps ih =>
    have hpass : { u with now := time } = u.meet service (.pass (time - u.now)) := by
      simp only [meet, Nat.add_sub_cancel' h]
    rw [SchedulerTimeline.reachWithin]
    split
    · exact ⟨_, _, run⟩
    · split
      next h due hn =>
        split
        next hdue =>
          have hnow : (u.happen service h due).now ≤ time := by
            rw [happen_now]
            exact Nat.max_le.2 ⟨‹_›, hdue⟩
          rcases happen_next service hn with hmeet | hmeet
          · rw [hmeet] at hnow ⊢
            exact ih (run.goesOn (o := .timer) rfl rfl) hnow
          · rw [hmeet] at hnow ⊢
            exact ih ((run.goesOn (o := .pass (due - u.now)) rfl rfl).goesOn (o := .call) rfl rfl) hnow
        next =>
          rw [hpass]
          exact ⟨_, _, run.goesOn (o := .pass (time - u.now)) rfl rfl⟩
      next =>
        rw [hpass]
        exact ⟨_, _, run.goesOn (o := .pass (time - u.now)) rfl rfl⟩

end Runs

/-- Runs of one program come to the same end at any pace: with the same answers to come from the prompter
and from the service, they have the same transcript and outcome, have marked the same blocks in the same
order, and have had the same exchanges with the service. -/
theorem pace_invisible (service : Service σ) (settings : Settings)
    (budget tick poll rest : Nat) (prompter₁ prompter₂ : Prompter) (api₁ api₂ : σ)
    (before₁ before₂ : List Occasion) {marks₁ marks₂ : List String}
    {exchanges₁ exchanges₂ : List Exchange} {u₁ u₂ : SchedulerTimeline σ} :
    let t₁ := after service settings prompter₁ api₁ before₁
    let t₂ := after service { settings with
      sliceBudget := budget, runTick := tick, pollInterval := poll, cooldown := rest }
        prompter₂ api₂ before₂
    t₁.scheduler.session.program = t₂.scheduler.session.program →
    t₁.scheduler.session.console.prompter = t₂.scheduler.session.console.prompter →
    t₁.api = t₂.api →
    t₁.Runs service marks₁ exchanges₁ u₁ → u₁.scheduler.session.outcome.isSome = true →
    t₂.Runs service marks₂ exchanges₂ u₂ → u₂.scheduler.session.outcome.isSome = true →
      u₁.scheduler.session.console.transcript = u₂.scheduler.session.console.transcript ∧
      u₁.scheduler.session.outcome = u₂.scheduler.session.outcome ∧
      marks₁ = marks₂ ∧ exchanges₁ = exchanges₂ ∧
      u₁.scheduler.session.console.prompter = u₂.scheduler.session.console.prompter ∧
      u₁.api = u₂.api := by
  intro t₁ t₂ program prompter hapi run₁ ended₁ run₂ ended₂
  have held₁ : t₁.scheduler.session.Held settings := held_after service settings prompter₁ api₁ before₁
  have held₂ := held_after service { settings with
    sliceBudget := budget, runTick := tick, pollInterval := poll, cooldown := rest }
      prompter₂ api₂ before₂
  change t₂.scheduler.session.Held _ at held₂
  have hstart : t₁.scheduler.session.start.2.gist = t₂.scheduler.session.start.2.gist := by
    refine Session.start_gist run₁.idle run₂.idle (held₁.pending_none run₁.idle)
      (held₂.pending_none run₂.idle) ?_ ?_ program prompter
    · rw [held₁.bridge, held₂.bridge]
      rfl
    · rw [held₁.policy, held₂.policy]
  have leads₁ := run₁.leads held₁
  have leads₂ := run₂.leads held₂
  unfold Session.course at leads₁ leads₂
  rw [hstart, hapi] at leads₁
  -- both runs are followed along one course, and a course has only one end
  have hend := leads₁.unique leads₂ (run₁.ends held₁ ended₁) (run₂.ends held₂ ended₂)
  simp only [course, Session.course, Course.mk.injEq] at hend
  obtain ⟨hsession, hservice, hmarks, hexchanges⟩ := hend
  exact ⟨congrArg (·.console.transcript) hsession, congrArg (·.outcome) hsession, hmarks, hexchanges,
    congrArg (·.console.prompter) hsession, hservice⟩

/-- A stack that focuses and then prints a text. -/
def focusAndPrint : Workspace :=
  let text := { Block.ofKind "text" "text" with fields := .singleton "TEXT" ⟨"done", none⟩ }
  let line := { Block.ofKind "show" "text_print" with values := .singleton "TEXT" ⟨some text, none⟩ }
  ⟨[], [[.ofKind "focus" "autofocus", line]]⟩

/-- A service that has to be polled once before an action is over. -/
def slowFocus : Prepared :=
  .queue .empty "autofocus" (.json (.obj ⟨[("status", .str "running"), ("href", .str "/tasks/1")]⟩))

/-- Stepped from block to block with a run at the end, or run in slices of one unit. -/
theorem focusAndPrint_paced :
    let hurried : Settings := { sliceBudget := 1, runTick := 0, pollInterval := 5, cooldown := 7 }
    let edited (settings : Settings) := after Prepared.service settings (.ofAnswers []) slowFocus
      [.command (.edit (.program focusAndPrint))]
    let u₁ := [.command .step, .command .step, .call, .call, .timer, .command (.edit .view),
      .command .run].foldl (meet Prepared.service) (edited {})
    let u₂ := [.command .run, .timer, .call, .timer, .call, .timer, .timer, .timer].foldl
      (meet Prepared.service) (edited hurried)
    ∃ marks exchanges, (edited {}).Runs Prepared.service marks exchanges u₁ ∧
      (edited hurried).Runs Prepared.service marks exchanges u₂ ∧
      (marks = ["focus", "show"] ∧ exchanges.length = 2 ∧
        u₁.scheduler.session.console.transcript = ["done", "<< Program complete >>"]) ∧
      u₂.scheduler.session.console.transcript = u₁.scheduler.session.console.transcript ∧
      u₂.scheduler.session.outcome = u₁.scheduler.session.outcome := by
  intro hurried edited u₁ u₂
  have stepped := @Runs.begun _ Prepared.service (edited {}) (.command .step) (by decide +kernel)
  have stepped := stepped.goesOn (o := .command .step) rfl (by decide +kernel)
  have stepped := stepped.goesOn (o := .call) rfl rfl
  have stepped := stepped.goesOn (o := .call) rfl rfl
  have stepped := stepped.goesOn (o := .timer) rfl rfl
  have stepped := stepped.goesOn (o := .command (.edit .view)) rfl rfl
  have stepped := stepped.goesOn (o := .command .run) rfl (by decide +kernel)
  have sliced := @Runs.begun _ Prepared.service (edited hurried) (.command .run) (by decide +kernel)
  have sliced := sliced.goesOn (o := .timer) rfl rfl
  have sliced := sliced.goesOn (o := .call) rfl rfl
  have sliced := sliced.goesOn (o := .timer) rfl rfl
  have sliced := sliced.goesOn (o := .call) rfl rfl
  have sliced := sliced.goesOn (o := .timer) rfl rfl
  have sliced := sliced.goesOn (o := .timer) rfl rfl
  have sliced := sliced.goesOn (o := .timer) rfl rfl
  obtain ⟨htranscript, houtcome, hmarks, hexchanges, -⟩ :=
    pace_invisible Prepared.service {} 1 0 5 7 (.ofAnswers []) (.ofAnswers []) slowFocus slowFocus
      [.command (.edit (.program focusAndPrint))] [.command (.edit (.program focusAndPrint))]
      rfl rfl rfl stepped (by decide +kernel) sliced (by decide +kernel)
  refine ⟨_, _, stepped, ?_, by decide +kernel, htranscript.symm, houtcome.symm⟩
  rw [hmarks, hexchanges]
  exact sliced

end SchedulerTimeline

end ScopeBlocks
