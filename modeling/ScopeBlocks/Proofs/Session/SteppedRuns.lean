import ScopeBlocks.Proofs.Session.BlockByBlock

/-! Runs that are driven by steps alone. Each step halts at the next block of the run, marked and not yet
begun, until a last one takes the run to its end: there is one step more than there are blocks. -/
namespace ScopeBlocks

open Script (Machine)

namespace Occasion

def isPassive : Occasion → Bool
  | .command _ => false
  | _ => true

theorem keepsRun_of_passive {o : Occasion} (h : o.isPassive = true) : o.keepsRun = true := by
  cases o with
  | command => cases h
  | timer | call | pass => rfl

theorem begins_of_passive {σ : Type} {o : Occasion} (h : o.isPassive = true)
    (t : SchedulerTimeline σ) : t.begins o = false := by
  cases o with
  | command => cases h
  | timer | call | pass => rfl

end Occasion

/-- The occasion with which the run of a session goes on. -/
def Session.wants (s : Session) : Occasion :=
  match s.pending with
  | some p => if p.errand.isSettled then .timer else .call
  | none => .timer

theorem Session.wants_gist (s : Session) : s.gist.wants = s.wants := by
  simp only [wants, pending_gist]
  cases s.pending <;> rfl

namespace SchedulerTimeline

variable {σ : Type} (service : Service σ)

/-- A run that a step has begun and only steps have driven, each sent while the controls were on, with
their number. -/
inductive Stepped (t : SchedulerTimeline σ) : Nat → SchedulerTimeline σ → Prop
  | begun (h : t.begins (.command .step) = true) : Stepped t 1 (t.meet service (.command .step))
  | again {k : Nat} {v : SchedulerTimeline σ} (stepped : Stepped t k v)
      (active : v.scheduler.session.isActive = true) (enabled : v.scheduler.controls = true) :
      Stepped t (k + 1) (v.meet service (.command .step))
  | goesOn {k : Nat} {v : SchedulerTimeline σ} {o : Occasion} (stepped : Stepped t k v)
      (passive : o.isPassive = true) : Stepped t k (v.meet service o)

/-- The run that begins with a session halts at the mark of a block, after some others: the mark is the
last thing that has been done in it, and what stands after the mark in its block is still to be done. -/
structure HaltsAt (start : Course σ) (before : List String) (id : String) (exchanges : List Exchange)
    (v : SchedulerTimeline σ) (s : Session) (m : Machine) (rest : List Script.Statement)
    (below : List Script.Frame) : Prop where
  leads : start.Leads service (s.course v.api before exchanges)
  hat : s.AtMark m id rest below
  session : v.scheduler.session = s.marked m id rest below

/-- How a run stands after some steps, with the blocks that it has marked. -/
inductive Phase (start : Course σ) (v : SchedulerTimeline σ) (exchanges : List Exchange) :
    Nat → List String → Prop
  | stepping {marks : List String} (mode : v.scheduler.mode = .stepping) :
      Phase start v exchanges (marks.length + 1) marks
  | paused {before : List String} {id : String} {s : Session} {m : Machine}
      {rest : List Script.Statement} {below : List Script.Frame} (mode : v.scheduler.mode = .paused)
      (halts : HaltsAt service start before id exchanges v s m rest below) :
      Phase start v exchanges (before.length + 1) (before ++ [id])
  | ended {marks : List String} (ended : v.scheduler.session.outcome.isSome = true) :
      Phase start v exchanges (marks.length + 1) marks

/-- What holds of a run that is driven by steps alone. -/
structure Progressed (settings : Settings) (t : SchedulerTimeline σ) (k : Nat)
    (v : SchedulerTimeline σ) (marks : List String) (exchanges : List Exchange) : Prop where
  held : t.scheduler.session.Held settings
  runs : t.Runs service marks exchanges v
  sound : v.Sound
  opened : v.closed = false
  loaded : ∃ w, v.scheduler.session.Loaded settings w
  stepwise : v.scheduler.session.Stepwise
  phase : Phase service (t.scheduler.session.start.2.course t.api [] []) v exchanges k marks

variable {service} {settings : Settings} {t v : SchedulerTimeline σ} {k : Nat} {marks : List String}
  {exchanges : List Exchange} {start : Course σ}

theorem Phase.of_stepsTo {api : σ} {s : Session} {new : List String}
    (leads : start.Leads service (s.course api marks exchanges)) (hapi : v.api = api)
    (h : Scheduler.StepsTo service api marks exchanges s v.scheduler new) :
    Phase service start v exchanges (marks.length + 1) (marks ++ new) := by
  subst hapi
  cases h with
  | block mode more hat session => exact .paused mode ⟨leads.trans more, hat, session⟩
  | goesOn mode =>
    rw [List.append_nil]
    exact .stepping mode
  | ends ended =>
    rw [List.append_nil]
    exact .ended ended

theorem rests_of_free
    (hn : ∀ c due, v.scheduler.next = some (c, due) → c = .cooldown)
    (hp : v.scheduler.session.pending = none) {o : Occasion} (passive : o.isPassive = true) :
    (v.meet service o).scheduler.session = v.scheduler.session ∧ (v.meet service o).api = v.api ∧
      v.marked o = [] ∧ v.exchanged service o = [] := by
  cases o with
  | command c => cases passive
  | timer =>
    simp only [meet, marked, exchanged]
    cases hnext : v.scheduler.next with
    | none => simp
    | some next =>
      obtain ⟨c, due⟩ := next
      obtain rfl := hn c due hnext
      exact ⟨rfl, rfl, rfl, trivial⟩
  | call =>
    have hmeet : v.meet service .call = { v with now := max v.now v.now } := by
      simp only [meet, happen, hp]
    rw [hmeet]
    exact ⟨rfl, rfl, rfl, by simp only [exchanged, hp]⟩
  | pass duration => exact ⟨rfl, rfl, rfl, rfl⟩

namespace Progressed

theorem paused (h : Progressed service settings t k v marks exchanges)
    (hi : v.scheduler.session.isActive = true) (hc : v.scheduler.controls = true) :
    v.scheduler.mode = .paused := by
  have hrow := h.sound.scheduler.row
  cases hm : v.scheduler.mode with
  | paused => rfl
  | idle =>
    rw [hm] at hrow
    rw [hrow.2.2] at hi
    cases hi
  | stepping | running | cooldown =>
    rw [hm] at hrow
    rw [hrow.1] at hc
    cases hc

theorem next_of_inactive (h : Progressed service settings t k v marks exchanges)
    (hi : v.scheduler.session.isActive = false) {c : Continuation} {due : Nat}
    (hn : v.scheduler.next = some (c, due)) : c = .cooldown := by
  have hrow := h.sound.scheduler.row
  rw [h.sound.scheduler.mode_of_next hn] at hrow
  cases c with
  | cooldown => rfl
  | step | run =>
    rw [hrow.2.2] at hi
    cases hi

end Progressed

variable (service marks exchanges) in
theorem meet_step (ho : v.closed = false) (hc : v.scheduler.controls = true)
    (h : v.scheduler.session.start.2.Stepwise)
    (hi : v.scheduler.session.start.1 = v.scheduler.session.start.2.isActive) :
    let u := v.meet service (.command .step)
    Scheduler.StepsTo service v.api marks exchanges v.scheduler.session.start.2 u.scheduler
      (v.marked (.command .step)) ∧ u.scheduler.session.Stepwise ∧ u.api = v.api := by
  have hsteps := Scheduler.handle_stepsTo service v.api marks exchanges v.now hc h hi
  simp only [meet, send, marked, ho, Bool.false_eq_true, if_false, Option.getD_some]
  exact ⟨hsteps.1, hsteps.2, rfl⟩

theorem progressed_begun (ht : t.Sound) (hl : ∃ w, t.scheduler.session.Loaded settings w)
    (h : t.begins (.command .step) = true) :
    Progressed service settings t 1 (t.meet service (.command .step)) (t.marked (.command .step)) [] := by
  obtain ⟨c, hcommand, -, ho, hc, hi⟩ := begins_cases h
  obtain ⟨w, hw⟩ := hl
  have hstepwise := Session.start_stepwise ht.scheduler.session hw hi
  have hstarted := (Session.start_sound ht.scheduler.session).2.1
  obtain ⟨hsteps, hlast, hapi⟩ := meet_step service [] [] ho hc hstepwise hstarted
  exact ⟨hw.held, .begun h, meet_sound ht _, (t.meet_closed service _).trans ho, meet_loaded ⟨w, hw⟩ _, hlast,
    .of_stepsTo .refl hapi hsteps⟩

namespace Progressed

theorem leads (h : Progressed service settings t k v marks exchanges) :
    (t.scheduler.session.start.2.course t.api [] []).Leads service (v.course marks exchanges) :=
  h.runs.leads h.held

theorem held_now (h : Progressed service settings t k v marks exchanges) :
    v.scheduler.session.Held settings := h.runs.held h.held

theorem inactive_of_ended (h : Progressed service settings t k v marks exchanges)
    (ho : v.scheduler.session.outcome.isSome = true) : v.scheduler.session.isActive = false := by
  simp [Session.isActive, (h.held_now.ended ho).1]

theorem count_of_paused (h : Progressed service settings t k v marks exchanges)
    (hm : v.scheduler.mode = .paused) : k = marks.length := by
  have hrow := h.sound.scheduler.row
  rw [hm] at hrow
  cases h.phase with
  | stepping mode =>
    rw [hm] at mode
    cases mode
  | paused => simp
  | ended ended =>
    have hi := h.inactive_of_ended ended
    rw [hrow.2.2.1] at hi
    cases hi

theorem again (h : Progressed service settings t k v marks exchanges)
    (hi : v.scheduler.session.isActive = true) (hc : v.scheduler.controls = true) :
    Progressed service settings t (k + 1) (v.meet service (.command .step))
      (marks ++ v.marked (.command .step)) exchanges := by
  obtain ⟨w, hw⟩ := h.loaded
  have hstart : v.scheduler.session.start = (true, v.scheduler.session) := by
    simp [Session.start, hi]
  have hruns := h.runs.goesOn (o := .command .step) rfl (by simp [begins, hi])
  have hstep := meet_step service marks exchanges h.opened hc
  rw [hstart] at hstep
  obtain ⟨hsteps, hlast, hapi⟩ := hstep h.stepwise hi.symm
  simp only [exchanged, List.append_nil] at hruns
  refine ⟨h.held, hruns, meet_sound h.sound _, (v.meet_closed service _).trans h.opened,
    meet_loaded ⟨w, hw⟩ _, hlast, ?_⟩
  rw [h.count_of_paused (h.paused hi hc)]
  exact .of_stepsTo h.leads hapi hsteps

theorem goesOn_stepping (h : Progressed service settings t k v marks exchanges)
    (hm : v.scheduler.mode = .stepping) (hk : k = marks.length + 1) {o : Occasion}
    (passive : o.isPassive = true) : (v.meet service o).scheduler.session.Stepwise ∧
      Phase service (t.scheduler.session.start.2.course t.api [] []) (v.meet service o)
        (exchanges ++ v.exchanged service o) k (marks ++ v.marked o) := by
  have hrow := h.sound.scheduler.row
  have hpaused := h.sound.scheduler.paused
  rw [hm] at hrow hpaused
  obtain ⟨-, ⟨due, hn⟩, hi⟩ := hrow
  have hq : v.scheduler.session.isPaused = false := by simpa using hpaused
  subst hk
  cases o with
  | command c => cases passive
  | timer =>
    obtain ⟨hsteps, hlast⟩ := Scheduler.advanceStep_stepsTo service v.api marks exchanges
      (max v.now due) (s := { v.scheduler with next := none }) v.scheduler.session.sliceBudget
      h.stepwise hi hq hm
    simp only [meet, marked, exchanged, hn, List.append_nil]
    exact ⟨hlast, .of_stepsTo h.leads rfl hsteps⟩
  | call =>
    simp only [meet, happen, marked, exchanged, List.append_nil]
    cases hp : v.scheduler.session.pending with
    | none => exact ⟨h.stepwise, .stepping hm⟩
    | some p =>
      exact ⟨⟨h.stepwise.sound.callOn hp _, h.stepwise.followed, h.stepwise.poised⟩, .stepping hm⟩
  | pass duration =>
    simp only [meet, marked, exchanged, List.append_nil]
    exact ⟨h.stepwise, .stepping hm⟩

theorem goesOn (h : Progressed service settings t k v marks exchanges) {o : Occasion}
    (passive : o.isPassive = true) :
    Progressed service settings t k (v.meet service o) (marks ++ v.marked o)
      (exchanges ++ v.exchanged service o) := by
  have hruns := h.runs.goesOn (Occasion.keepsRun_of_passive passive) (Occasion.begins_of_passive passive v)
  have hsound : (v.meet service o).Sound := meet_sound h.sound o
  suffices hsuffices : (v.meet service o).scheduler.session.Stepwise ∧
      Phase service (t.scheduler.session.start.2.course t.api [] []) (v.meet service o)
        (exchanges ++ v.exchanged service o) k (marks ++ v.marked o) from
    ⟨h.held, hruns, hsound, (v.meet_closed service o).trans h.opened,
      meet_loaded h.loaded o, hsuffices.1, hsuffices.2⟩
  have hrow := h.sound.scheduler.row
  cases hphase : h.phase with
  | stepping mode => exact h.goesOn_stepping mode rfl passive
  | paused mode halts =>
    rw [mode] at hrow
    obtain ⟨hsession, hapi, hmarks, hexchanges⟩ :=
      rests_of_free (by simp [hrow.2.1]) hrow.2.2.2.2.2 passive
    have hmode : (v.meet service o).scheduler.mode = .paused := by
      rw [← hsound.scheduler.paused, hsession]
      exact hrow.2.2.2.2.1
    rw [hsession, hmarks, hexchanges, List.append_nil, List.append_nil]
    exact ⟨h.stepwise, .paused hmode ⟨hapi ▸ halts.leads, halts.hat, hsession.trans halts.session⟩⟩
  | ended ended =>
    have hi := h.inactive_of_ended ended
    obtain ⟨hsession, hapi, hmarks, hexchanges⟩ :=
      rests_of_free (fun _ _ hn => h.next_of_inactive hi hn) (h.held_now.ended ended).2 passive
    rw [hsession, hmarks, hexchanges, List.append_nil, List.append_nil]
    exact ⟨h.stepwise, .ended (hsession ▸ ended)⟩

end Progressed

/-- What holds of a run after any steps. -/
theorem Stepped.progressed (ht : t.Sound) (hl : ∃ w, t.scheduler.session.Loaded settings w)
    (h : t.Stepped service k v) :
    ∃ marks exchanges, Progressed service settings t k v marks exchanges := by
  induction h with
  | begun h => exact ⟨_, _, progressed_begun ht hl h⟩
  | again _ active enabled ih =>
    obtain ⟨marks, exchanges, h⟩ := ih
    exact ⟨_, _, h.again active enabled⟩
  | goesOn _ passive ih =>
    obtain ⟨marks, exchanges, h⟩ := ih
    exact ⟨_, _, h.goesOn passive⟩

/-! Steps come to an end. -/

/-- Time that goes on without a command: the continuation that is due and the awaited call each get their
turn again and again. -/
structure Elapsing (f : Nat → Occasion) : Prop where
  passive : ∀ i, (f i).isPassive = true
  timer : ∀ i, ∃ j, i ≤ j ∧ f j = .timer
  call : ∀ i, ∃ j, i ≤ j ∧ f j = .call

theorem Elapsing.tail {f : Nat → Occasion} (h : Elapsing f) : Elapsing fun i => f (i + 1) where
  passive i := h.passive (i + 1)
  timer i := by
    obtain ⟨j, hj, hf⟩ := h.timer (i + 1)
    exact ⟨j - 1, by omega, by rwa [Nat.sub_add_cancel (by omega)]⟩
  call i := by
    obtain ⟨j, hj, hf⟩ := h.call (i + 1)
    exact ⟨j - 1, by omega, by rwa [Nat.sub_add_cancel (by omega)]⟩

theorem Elapsing.comes {f : Nat → Occasion} (h : Elapsing f) (s : Session) : ∃ j, f j = s.wants := by
  obtain ⟨j, -, hj⟩ := h.timer 0
  obtain ⟨i, -, hi⟩ := h.call 0
  unfold Session.wants
  split
  · split
    · exact ⟨j, hj⟩
    · exact ⟨i, hi⟩
  · exact ⟨j, hj⟩

variable (service) in
def elapse (f : Nat → Occasion) : Nat → SchedulerTimeline σ → SchedulerTimeline σ
  | 0, v => v
  | n + 1, v => elapse (fun i => f (i + 1)) n (v.meet service (f 0))

/-- A run that is over, or that waits for a command. -/
def Halts (v : SchedulerTimeline σ) : Prop :=
  v.scheduler.session.isActive = true ∧ v.scheduler.controls = true ∨
    v.scheduler.session.outcome.isSome = true

theorem Stepped.elapse {f : Nat → Occasion} (hf : Elapsing f) (h : t.Stepped service k v) (n : Nat) :
    t.Stepped service k (v.elapse service f n) := by
  induction n generalizing f v with
  | zero => exact h
  | succ n ih => exact ih hf.tail (h.goesOn (hf.passive 0))

namespace Progressed

theorem halts_or (h : Progressed service settings t k v marks exchanges) :
    v.Halts ∨ v.scheduler.mode = .stepping := by
  have hrow := h.sound.scheduler.row
  cases h.phase with
  | stepping mode => exact .inr mode
  | paused mode =>
    rw [mode] at hrow
    exact .inl (.inl ⟨hrow.2.2.1, hrow.1⟩)
  | ended ended => exact .inl (.inr ended)

theorem next_leads (h : Progressed service settings t k v marks exchanges)
    (hm : v.scheduler.mode = .stepping) {o : Occasion} (ho : o = v.scheduler.session.wants) :
    ((v.course marks exchanges).next service).Leads service
      ((v.meet service o).course (marks ++ v.marked o) (exchanges ++ v.exchanged service o)) := by
  have hrow := h.sound.scheduler.row
  rw [hm] at hrow
  obtain ⟨-, ⟨due, hn⟩, hi⟩ := hrow
  have hmatched := h.held_now.matched
  obtain ⟨w, hw⟩ := h.loaded
  have hbudget : 0 < v.scheduler.session.sliceBudget := by
    rw [hw.sliceBudget]
    exact Nat.lt_of_lt_of_le Nat.one_pos (Nat.le_max_right _ _)
  have timed (hp : ∀ p, v.scheduler.session.pending = some p → p.errand.isSettled = true) :
      ((v.course marks exchanges).next service).Leads service
        ((v.meet service .timer).course (marks ++ v.marked .timer)
          (exchanges ++ v.exchanged service .timer)) := by
    simp only [meet, marked, exchanged, hn, List.append_nil]
    exact Scheduler.next_leads_advanceStep service v.api marks exchanges (max v.now due)
      (s := { v.scheduler with next := none }) hbudget hmatched hp
  unfold Session.wants at ho
  cases hp : v.scheduler.session.pending with
  | none =>
    rw [hp] at ho
    exact ho ▸ timed (by simp [hp])
  | some p =>
    rw [hp] at ho
    dsimp only at ho
    cases hsettled : p.errand.isSettled with
    | true =>
      rw [if_pos hsettled] at ho
      exact ho ▸ timed (by simp [hp, hsettled])
    | false =>
      rw [if_neg (by simp [hsettled])] at ho
      subst ho
      have hnext := Session.next_of_unsettled service v.api marks exchanges hp hsettled
      obtain ⟨herrand, hapi⟩ := v.scheduler.session.bridge.fire_noting service p.errand v.api []
      rw [herrand, hapi] at hnext
      simp only [meet, happen, marked, exchanged, hp, List.append_nil]
      rw [show (v.course marks exchanges).next service = _ from hnext]
      exact .refl

/-- A run that is being stepped, and has the next thing in its course before it, gets to that with the occasion
that it wants. Until then it stays where it is, or gets there by another occasion. -/
theorem halts_wanted {x c : Course σ} (hnext : x.next service = c)
    (ih : ∀ v marks exchanges f, Progressed service settings t k v marks exchanges →
      c.Leads service (v.course marks exchanges) → Elapsing f → ∃ n, (v.elapse service f n).Halts)
    (j : Nat) : ∀ v marks exchanges f, Progressed service settings t k v marks exchanges →
      v.course marks exchanges = x → Elapsing f → f j = v.scheduler.session.wants →
        ∃ n, (v.elapse service f n).Halts := by
  -- the induction is on how many occasions come before the one that is wanted
  induction j with
  | zero =>
    intro v marks exchanges f h hx hf hj
    rcases h.halts_or with hhalts | hm
    · exact ⟨0, hhalts⟩
    · have hmore := h.next_leads hm hj
      rw [hx, hnext] at hmore
      obtain ⟨n, hn⟩ := ih _ _ _ _ (h.goesOn (hf.passive 0)) hmore hf.tail
      exact ⟨n + 1, hn⟩
  | succ j ihj =>
    intro v marks exchanges f h hx hf hj
    rcases h.halts_or with hhalts | hm
    · exact ⟨0, hhalts⟩
    · have hgoes := h.goesOn (hf.passive 0)
      have hlead : (v.course marks exchanges).Leads service ((v.meet service (f 0)).course _ _) :=
        meet_leads h.held_now.matched (Occasion.keepsRun_of_passive (hf.passive 0))
          (Occasion.begins_of_passive (hf.passive 0) v) marks exchanges
      rw [hx] at hlead
      rcases Relation.ReflTransGen.cases_head hlead with hsame | ⟨c', hc', hrest⟩
      · have hwants : (v.meet service (f 0)).scheduler.session.wants = v.scheduler.session.wants := by
          rw [← Session.wants_gist, ← v.scheduler.session.wants_gist]
          exact congrArg (·.session.wants) (hsame.symm.trans hx.symm)
        obtain ⟨n, hn⟩ := ihj _ _ _ _ hgoes hsame.symm hf.tail (hj.trans hwants.symm)
        exact ⟨n + 1, hn⟩
      · obtain rfl : c' = c := hc'.symm.trans hnext
        obtain ⟨n, hn⟩ := ih _ _ _ _ hgoes hrest hf.tail
        exact ⟨n + 1, hn⟩

/-- Where the course of the run has an end, a step halts before it or there. -/
theorem halts {final : Course σ} (h : Progressed service settings t k v marks exchanges)
    (hfinal : (t.scheduler.session.start.2.course t.api [] []).Leads service final)
    (hend : final.next service = final) (hover : final.session.machine = none)
    {f : Nat → Occasion} (hf : Elapsing f) : ∃ n, (v.elapse service f n).Halts := by
  have hrest : (v.course marks exchanges).Leads service final := by
    rcases h.leads.total hfinal with hl | hl
    · exact hl
    · rw [hl.stays hend]
      exact .refl
  -- the induction goes back from the end of the course, each time to what comes before the next thing
  suffices hsuffices : ∀ x : Course σ, x.Leads service final → ∀ v marks exchanges f,
      Progressed service settings t k v marks exchanges → x.Leads service (v.course marks exchanges) →
        Elapsing f → ∃ n, (v.elapse service f n).Halts from
    hsuffices _ hrest v marks exchanges f h .refl hf
  intro x hx
  induction hx using Relation.ReflTransGen.head_induction_on with
  | refl =>
    intro v marks exchanges f h hlead hf
    have hnone : v.scheduler.session.machine = none := by
      rw [← hover, ← hlead.stays hend]
      rfl
    refine ⟨0, h.halts_or.resolve_right fun hm => ?_⟩
    have hrow := h.sound.scheduler.row
    rw [hm] at hrow
    have hi := hrow.2.2
    simp [Session.isActive, hnone] at hi
  | @head x c hnext _ ih =>
    intro v marks exchanges f h hlead hf
    rcases Relation.ReflTransGen.cases_head hlead with hx | ⟨c', hc', hrest⟩
    · obtain ⟨j, hj⟩ := hf.comes v.scheduler.session
      exact halts_wanted hnext ih j v marks exchanges f h hx.symm hf hj
    · obtain rfl : c' = c := hc'.symm.trans hnext
      exact ih v marks exchanges f h hrest hf

end Progressed

theorem Progressed.block {final : Course σ} (h : Progressed service settings t k v marks exchanges)
    (hfinal : (t.scheduler.session.start.2.course t.api [] []).Leads service final)
    (hend : final.next service = final) (hm : v.scheduler.mode = .paused) :
    ∃ before id after s m rest below, final.marks = before ++ id :: after ∧ k = before.length + 1 ∧
      v.scheduler.session.console.highlight.current = some id ∧
      HaltsAt service (t.scheduler.session.start.2.course t.api [] []) before id exchanges v s m rest
        below := by
  have hrow := h.sound.scheduler.row
  rw [hm] at hrow
  cases h.phase with
  | stepping mode =>
    rw [hm] at mode
    cases mode
  | ended ended =>
    have hi := h.inactive_of_ended ended
    rw [hrow.2.2.1] at hi
    cases hi
  | @paused before id s m rest below mode halts =>
    have hprefix : before ++ [id] <+: final.marks := by
      rcases h.leads.total hfinal with hl | hl
      · exact hl.marks_prefix
      · rw [← hl.stays hend]
        exact List.prefix_rfl
    obtain ⟨after, hafter⟩ := hprefix
    refine ⟨before, id, after, s, m, rest, below, ?_, rfl, ?_, halts⟩
    · rw [← hafter, List.append_assoc]
      rfl
    · rw [halts.session]
      rfl

theorem Progressed.ended {final : Course σ} (h : Progressed service settings t k v marks exchanges)
    (hfinal : (t.scheduler.session.start.2.course t.api [] []).Leads service final)
    (hend : final.next service = final)
    (ho : v.scheduler.session.outcome.isSome = true) : k = final.marks.length + 1 := by
  have hi := h.inactive_of_ended ho
  have hrow := h.sound.scheduler.row
  have hsame := h.leads.unique hfinal (h.runs.ends h.held ho) hend
  rw [← hsame]
  cases h.phase with
  | stepping | ended => rfl
  | paused mode =>
    rw [mode] at hrow
    rw [hrow.2.2.1] at hi
    cases hi

theorem elapsing_alternating : Elapsing fun i => if i % 2 = 0 then .timer else .call where
  passive i := by split <;> rfl
  timer i := ⟨2 * i, by omega, by simp⟩
  call i := ⟨2 * i + 1, by omega, by simp [Nat.add_mod]⟩

/-- The course of a run depends on its program and on the answers to come, not on its pace. -/
theorem start_course_paced (settings : Settings) (budget tick poll rest : Nat)
    {t₁ t₂ : SchedulerTimeline σ} (held₁ : t₁.scheduler.session.Held settings)
    (held₂ : t₂.scheduler.session.Held { settings with
      sliceBudget := budget, runTick := tick, pollInterval := poll, cooldown := rest })
    (idle₁ : t₁.scheduler.session.isActive = false) (idle₂ : t₂.scheduler.session.isActive = false)
    (program : t₁.scheduler.session.program = t₂.scheduler.session.program)
    (prompter : t₁.scheduler.session.console.prompter = t₂.scheduler.session.console.prompter)
    (hapi : t₁.api = t₂.api) : t₁.scheduler.session.start.2.course t₁.api [] [] =
      t₂.scheduler.session.start.2.course t₂.api [] [] := by
  have hstart : t₁.scheduler.session.start.2.gist = t₂.scheduler.session.start.2.gist := by
    refine Session.start_gist idle₁ idle₂ (held₁.pending_none idle₁) (held₂.pending_none idle₂) ?_ ?_
      program prompter
    · rw [held₁.bridge, held₂.bridge]
      rfl
    · rw [held₁.policy, held₂.policy]
  rw [Session.course, Session.course, hstart, hapi]

variable (service) in
/-- What steps make of a run that marks some blocks until its end. While the controls are on, the run is
paused at the block that has the number of the last step, its mark being the last thing that has been done.
The run is over with one step more than there are blocks, and not before. After each step it comes to a
block or to its end, however long its calls take. -/
structure Visits (t : SchedulerTimeline σ) (marks : List String) (k : Nat) (v : SchedulerTimeline σ) :
    Prop where
  block : v.scheduler.session.isActive = true → v.scheduler.controls = true →
    v.scheduler.mode = .paused ∧ ∃ before id after exchanges s m rest below,
      marks = before ++ id :: after ∧ k = before.length + 1 ∧
      v.scheduler.session.console.highlight.current = some id ∧
      HaltsAt service (t.scheduler.session.start.2.course t.api [] []) before id exchanges v s m rest
        below
  ended : v.scheduler.session.outcome.isSome = true → k = marks.length + 1
  halts : ∀ f, Elapsing f → ∃ n, t.Stepped service k (v.elapse service f n) ∧
    (v.elapse service f n).Halts

theorem Stepped.visits {final : Course σ} (ht : t.Sound)
    (hl : ∃ w, t.scheduler.session.Loaded settings w)
    (hfinal : (t.scheduler.session.start.2.course t.api [] []).Leads service final)
    (hend : final.next service = final) (hover : final.session.machine = none)
    (h : t.Stepped service k v) : t.Visits service final.marks k v := by
  obtain ⟨marks, exchanges, hp⟩ := h.progressed ht hl
  refine ⟨fun hi hc => ⟨hp.paused hi hc, ?_⟩, hp.ended hfinal hend, fun f hf => ?_⟩
  · obtain ⟨before, id, after, s, m, rest, below, hblock⟩ := hp.block hfinal hend (hp.paused hi hc)
    exact ⟨before, id, after, exchanges, s, m, rest, below, hblock⟩
  · obtain ⟨n, hn⟩ := hp.halts hfinal hend hover hf
    exact ⟨n, h.elapse hf n, hn⟩

theorem Stepped.comes_to_end {blocks : List String}
    (visits : ∀ k v, t.Stepped service k v → t.Visits service blocks k v)
    (h : t.Stepped service k v) (left : Nat) (hk : blocks.length + 1 ≤ k + left) :
    ∃ v, t.Stepped service (blocks.length + 1) v ∧ v.scheduler.session.outcome.isSome = true := by
  induction left generalizing k v with
  | zero =>
    obtain ⟨n, hn, ⟨hi, hc⟩ | ho⟩ := (visits k v h).halts _ elapsing_alternating
    · obtain ⟨-, before, id, after, _, _, _, _, _, hmarks, hlast, -⟩ := (visits k _ hn).block hi hc
      have hlength := congrArg List.length hmarks
      simp only [List.length_append, List.length_cons] at hlength
      omega
    · exact ⟨_, (visits k _ hn).ended ho ▸ hn, ho⟩
  | succ left ih =>
    obtain ⟨n, hn, ⟨hi, hc⟩ | ho⟩ := (visits k v h).halts _ elapsing_alternating
    · exact ih (hn.again hi hc) (by omega)
    · exact ⟨_, (visits k _ hn).ended ho ▸ hn, ho⟩

/-- Where a run of a program comes to its end and has marked some blocks, steps alone take the program from
one of these blocks to the next, at any pace and with as many steps as there are blocks and one more. -/
theorem steps_visit_blocks (service : Service σ) (settings : Settings)
    (budget tick poll rest : Nat) (prompter₁ prompter₂ : Prompter) (api₁ api₂ : σ)
    (before₁ before₂ : List Occasion) {marks : List String} {exchanges : List Exchange}
    {u : SchedulerTimeline σ} :
    let t₁ := after service settings prompter₁ api₁ before₁
    let t₂ := after service { settings with
      sliceBudget := budget, runTick := tick, pollInterval := poll, cooldown := rest }
        prompter₂ api₂ before₂
    t₁.scheduler.session.program = t₂.scheduler.session.program →
    t₁.scheduler.session.console.prompter = t₂.scheduler.session.console.prompter →
    t₁.api = t₂.api →
    t₁.Runs service marks exchanges u → u.scheduler.session.outcome.isSome = true →
    t₂.begins (.command .step) = true →
      (∀ k v, t₂.Stepped service k v → t₂.Visits service marks k v) ∧
      ∃ v, t₂.Stepped service (marks.length + 1) v ∧
        v.scheduler.session.outcome.isSome = true := by
  intro t₁ t₂ program prompter hapi run ended begins
  have held₁ : t₁.scheduler.session.Held settings := held_after service settings prompter₁ api₁ before₁
  have loaded : ∃ w, t₂.scheduler.session.Loaded _ w := loaded_after service _ prompter₂ api₂ before₂
  have held₂ : t₂.scheduler.session.Held _ := held_after service _ prompter₂ api₂ before₂
  have sound : t₂.Sound := sound_after service _ prompter₂ api₂ before₂
  obtain ⟨-, -, -, -, -, idle⟩ := begins_cases begins
  have hfinal := run.leads held₁
  rw [start_course_paced settings budget tick poll rest held₁ held₂ run.idle idle program prompter
    hapi] at hfinal
  have hend := run.ends held₁ ended
  -- the end of the first run is the end of the course that the steps follow
  have hover : (u.course marks exchanges).session.machine = none := ((run.held held₁).ended ended).1
  have visits : ∀ k v, t₂.Stepped service k v → t₂.Visits service marks k v :=
    fun k v stepped => stepped.visits sound loaded hfinal hend hover
  have first : t₂.Stepped service 1 _ := .begun begins
  exact ⟨visits, first.comes_to_end visits marks.length (by omega)⟩

/-- Run at once, a program marks two blocks. Stepped in slices of one unit it is paused at the second one
after its second step, with the call of the first one over, and a third step is its last. -/
theorem focusAndPrint_stepped :
    let hurried : Settings := { sliceBudget := 1, runTick := 0, pollInterval := 5, cooldown := 7 }
    let edited (settings : Settings) := after Prepared.service settings (.ofAnswers []) slowFocus
      [.command (.edit (.program focusAndPrint))]
    let v := [.command .step, .command .step, .call, .call, .timer, .timer].foldl
      (meet Prepared.service) (edited hurried)
    (edited hurried).Stepped Prepared.service 2 v ∧ v.scheduler.mode = .paused ∧
      v.scheduler.session.console.highlight.current = some "show" ∧
      ∃ w, (edited hurried).Stepped Prepared.service 3 w ∧
        w.scheduler.session.outcome.isSome = true := by
  intro hurried edited v
  let halted := (edited hurried).meet Prepared.service (.command .step)
  let last := [.call, .call, .timer].foldl (meet Prepared.service)
    ((edited {}).meet Prepared.service (.command .run))
  have hfacts : ((edited {}).begins (.command .run) = true ∧
      last.scheduler.session.outcome.isSome = true) ∧
      (edited hurried).begins (.command .step) = true ∧
      (halted.scheduler.session.isActive = true ∧ halted.scheduler.controls = true) ∧
      v.scheduler.session.isActive = true ∧ v.scheduler.controls = true := by decide +kernel
  obtain ⟨⟨hrun, hover⟩, hstep, ⟨hhalted, hagain⟩, hactive, hon⟩ := hfacts
  have ran := @Runs.begun _ Prepared.service (edited {}) (.command .run) hrun
  have ran := ran.goesOn (o := .call) rfl rfl
  have ran := ran.goesOn (o := .call) rfl rfl
  have ran := ran.goesOn (o := .timer) rfl rfl
  obtain ⟨marks, hmarks, exchanges, ran⟩ : ∃ marks, marks = ["focus", "show"] ∧ ∃ exchanges,
      (edited {}).Runs Prepared.service marks exchanges last := ⟨_, by decide +kernel, _, ran⟩
  have stepped := @Stepped.begun _ Prepared.service (edited hurried) hstep
  have stepped := stepped.again hhalted hagain
  have stepped := stepped.goesOn (o := .call) rfl
  have stepped := stepped.goesOn (o := .call) rfl
  have stepped := stepped.goesOn (o := .timer) rfl
  have stepped : (edited hurried).Stepped Prepared.service 2 v := stepped.goesOn (o := .timer) rfl
  obtain ⟨visits, hlast⟩ := steps_visit_blocks Prepared.service {} 1 0 5 7 (.ofAnswers [])
    (.ofAnswers []) slowFocus slowFocus [.command (.edit (.program focusAndPrint))]
    [.command (.edit (.program focusAndPrint))] rfl rfl rfl ran hover hstep
  obtain ⟨hmode, before, id, after, -, -, -, -, -, hsplit, hcount, hcurrent, -⟩ :=
    (visits 2 v stepped).block hactive hon
  subst hmarks
  obtain ⟨first, rfl⟩ := List.length_eq_one_iff.1 (show before.length = 1 by omega)
  obtain ⟨rfl, rfl, rfl⟩ : first = "focus" ∧ id = "show" ∧ after = [] := by
    simpa [eq_comm] using hsplit
  exact ⟨stepped, hmode, hcurrent, hlast⟩

end SchedulerTimeline

end ScopeBlocks
