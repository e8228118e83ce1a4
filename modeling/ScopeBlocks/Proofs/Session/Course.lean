import Mathlib.Logic.Relation
import ScopeBlocks.Proofs.Device.Conversation
import ScopeBlocks.Proofs.Script.Views
import ScopeBlocks.Proofs.Session.Outstanding

/-! The course of a run. It consists of single things, each of which follows from what was before it: a
unit of the script, an act of the awaited call, the taking over of its result. Times, pauses and the size
of slices have no part in it. Whatever makes a session go on takes its run along this course. -/
namespace ScopeBlocks

open Script (Machine Step Host Watched Sees)

def Console.gist (c : Console) : Console := { c with highlight := c.highlight.clearPause }

def PendingCall.gist (p : PendingCall) : PendingCall := { p with errand.due := 0 }

def Bridge.gist (b : Bridge) : Bridge := { b with pollInterval := 0 }

namespace Session

/-- What is left of a session without its pace: there are no times and no pauses. Nor is there the program,
which counts when a run begins and not later. -/
def gist (s : Session) : Session where
  bridge := s.bridge.gist
  policy := s.policy
  sliceBudget := 0
  workspace := .empty
  compiled := .ok .empty
  machine := s.machine
  console := s.console.gist
  pending := s.pending.map PendingCall.gist
  outcome := s.outcome
  failedActions := s.failedActions

/-- The blocks that are marked when the session goes on. -/
def marks (s : Session)
    (run : Machine → Watched Console → Except Script.Error Step × Machine × Watched Console) :
    List String :=
  match s.settle with
  | (none, t) =>
    match t.machine with
    | none => []
    | some m => (run m ⟨t.console, []⟩).2.2.marks
  | (some _, _) => []

def tickMarks (s : Session) : List String := s.marks (·.step Console.host.watched ·)

def sliceMarks (s : Session) : List String :=
  s.marks (·.runBounded Console.host.watched s.sliceBudget ·)

end Session

/-- A run: its session, the service, the marked blocks and the exchanges with the service so far. -/
structure Course (σ : Type) where
  session : Session
  api : σ
  marks : List String
  exchanges : List Exchange

namespace Course

variable {σ : Type} (service : Service σ)

/-- The next thing in a run. Where there is none, nothing changes any more. -/
def next (x : Course σ) : Course σ :=
  match x.session.pending with
  | none => { x with
      session := (x.session.tick 0).2.gist
      marks := x.marks ++ x.session.tickMarks }
  | some p =>
    if p.errand.isSettled then { x with session := x.session.settle.2.gist }
    else
      let (errand, api, exchanges) := x.session.bridge.fire service.noting p.errand (x.api, [])
      { x with
        session := Session.gist { x.session with pending := some { p with errand } }
        api
        exchanges := x.exchanges ++ exchanges }

/-- The one leads to the other by one thing after another. -/
def Leads : Course σ → Course σ → Prop := Relation.ReflTransGen fun x y => x.next service = y

end Course

/-- A console on which marks ask for no pause. -/
def Console.steady : Host Console :=
  { Console.host with mark := fun id c => { c with highlight := ⟨some id, false⟩ } }

theorem Console.sees_gist : Sees Console.host Console.steady Console.gist where
  print _ _ := rfl
  prompt _ _ _ := rfl
  mark _ _ := rfl

theorem Script.Machine.step_gist (m : Machine) (c : Console) :
    (m.step Console.host c.gist).1 = (m.step Console.host c).1 ∧
      (m.step Console.host c.gist).2.1 = (m.step Console.host c).2.1 ∧
        (m.step Console.host c.gist).2.2.gist = (m.step Console.host c).2.2.gist := by
  have h := (Console.sees_gist.step m c.gist).symm.trans (Console.sees_gist.step m c)
  simpa only [Prod.mk.injEq] using h

theorem Script.Machine.step_watched_gist (m : Machine) (c : Console) :
    (m.step Console.host.watched ⟨c.gist, []⟩).2.2.marks =
      (m.step Console.host.watched ⟨c, []⟩).2.2.marks := by
  have hsees := Console.sees_gist.watched
  have h := (hsees.step m ⟨c.gist, []⟩).symm.trans (hsees.step m ⟨c, []⟩)
  simp only [Prod.mk.injEq, Watched.seen, Watched.mk.injEq] at h
  simp only [Watched.marks, h.2.2.2]

/-- The console of a world with the last marked block shown, or another one where there is none. -/
def Console.shown (current : Option String) (w : Watched Console) : Watched Console :=
  { w with host.highlight.current := w.marks.getLast?.or current }

theorem Console.sees_shown (current : Option String) :
    Sees Console.host.watched Console.host.watched (Console.shown current) where
  print text w := by
    simp [shown, host, log, Host.watched, Watched.note, Watched.marks, Script.Effect.marked?]
  prompt message numeric w := by
    simp [shown, host, Host.watched, Watched.note, Watched.marks, Script.Effect.marked?]
  mark id w := by
    simp [shown, host, Highlight.mark, Host.watched, Watched.note, Watched.marks, Script.Effect.marked?]

theorem Script.Machine.step_current (m : Machine) (c : Console) :
    (m.step Console.host c).2.2.highlight.current =
      (m.step Console.host.watched ⟨c, []⟩).2.2.marks.getLast?.or c.highlight.current := by
  have hhost := (Script.sees_host Console.host).step m ⟨c, []⟩
  have hshown := (Console.sees_shown c.highlight.current).step m ⟨c, []⟩
  rw [hhost]
  exact congrArg (·.2.2.host.highlight.current) hshown

theorem Bridge.fire_gist {σ : Type} (b : Bridge) (service : Service σ) (e : Errand) (s : σ) :
    (b.gist.fire service { e with due := 0 } s).1.stage = (b.fire service e s).1.stage ∧
      (b.gist.fire service { e with due := 0 } s).2 = (b.fire service e s).2 := by
  obtain ⟨stage, due⟩ := e
  cases stage with
  | created goal =>
    cases goal with
    | wait duration => exact ⟨rfl, rfl⟩
    | read path pick => exact ⟨rfl, rfl⟩
    | act request pick =>
      simp only [fire, errandAt_stage]
      exact ⟨rfl, rfl⟩
  | waiting => exact ⟨rfl, rfl⟩
  | polling path pick href polls =>
    simp only [fire, errandAt_stage, and_true]
    rfl
  | settled r => exact ⟨rfl, rfl⟩

namespace Session

variable {s t : Session} {now : Nat}

theorem pending_gist (s : Session) : s.gist.pending = s.pending.map PendingCall.gist := rfl

theorem gist_gist (s : Session) : s.gist.gist = s.gist := by
  simp only [gist, Option.map_map]
  rfl

theorem afterStep_gist (s : Session) (now : Nat) (step : Except Script.Error Step) :
    (s.afterStep now step).2.gist = (s.gist.afterStep 0 step).2.gist := by
  cases step with
  | error => rfl
  | ok step =>
    cases step with
    | suspend | done => rfl
    | «continue» | pending => exact s.gist_gist.symm

theorem deliver_gist (s : Session) (v : Script.Value) :
    s.gist.deliver v = ((s.deliver v).1, (s.deliver v).2.gist) := by
  simp only [deliver, show s.gist.machine = s.machine from rfl]
  cases s.machine with
  | none => rfl
  | some m =>
    dsimp only
    cases m.resolve? v with
    | none => rfl
    | some m => rfl

theorem deliverFailure_gist (s : Session) (call : Script.AsyncCall) (message : String) :
    s.gist.deliverFailure call message =
      ((s.deliverFailure call message).1, (s.deliverFailure call message).2.gist) := by
  simp only [deliverFailure, show s.gist.policy = s.policy from rfl]
  cases s.policy with
  | abort => rfl
  | «continue» =>
    exact deliver_gist { s with
      policy := .continue
      failedActions := s.failedActions + 1
      console := s.console.log s!"Action {call.text} failed: {message}" } (.error message)

theorem settle_gist (s : Session) : s.gist.settle = (s.settle.1, s.settle.2.gist) := by
  simp only [settle, pending_gist]
  cases hp : s.pending with
  | none => rfl
  | some p =>
    obtain ⟨call, ⟨stage, due⟩, delivered⟩ := p
    cases stage with
    | created | waiting | polling => rfl
    | settled r =>
      simp only [Option.map_some, PendingCall.take, PendingCall.gist, Errand.result?]
      cases (if delivered then PendingCall.spent else .ofResult r) with
      | completed v => exact deliver_gist { s with pending := none } v
      | failed message => exact deliverFailure_gist { s with pending := none } call message

theorem settle_pending (h : s.Matched) (hs : s.settle = (none, t)) : t.pending = none := by
  have hsettles := settle_settles h
  rw [hs] at hsettles
  cases hsettles with
  | idle hp => exact hp
  | resumed => rfl

theorem goOn_of_settled {m : Machine}
    {run : Machine → Console → Except Script.Error Step × Machine × Console}
    {after : Session → Session} (hs : s.settle = (none, t)) (hm : t.machine = some m) :
    s.goOn now run after =
      (t.driven after (run m t.console)).afterStep now (run m t.console).1 := by
  simp only [goOn, hs, hm]
  rfl

theorem settle_of_free (hp : s.pending = none) : s.settle = (none, s) := by
  simp only [settle, hp]

theorem tick_gist (hp : s.pending = none) (now : Nat) :
    (s.gist.tick 0).2.gist = (s.tick now).2.gist ∧ s.gist.tickMarks = s.tickMarks := by
  have hs := settle_of_free hp
  have hgist := s.settle_gist
  rw [hs] at hgist
  cases hm : s.machine with
  | none =>
    have hm' : s.gist.machine = none := hm
    simp only [tick, goOn, tickMarks, marks, hs, hgist, hm, hm', gist_gist, and_self]
  | some m =>
    have hm' : s.gist.machine = some m := hm
    obtain ⟨hstep, hmachine, hconsole⟩ := m.step_gist s.console
    constructor
    · have hdriven : (s.gist.driven id (m.step Console.host s.console.gist)).gist =
          (s.driven id (m.step Console.host s.console)).gist := by
        simp only [driven, id, gist, hmachine, hconsole, Option.map_map]
        rfl
      rw [tick, tick, goOn_of_settled hs hm, goOn_of_settled hgist hm', afterStep_gist,
        afterStep_gist _ now, show s.gist.console = s.console.gist from rfl, hdriven, hstep]
    · simp only [tickMarks, marks, hs, hgist, hm, hm']
      exact m.step_watched_gist s.console

/-- A session with the service and with what its run has come to outside of it. -/
def course {σ : Type} (s : Session) (api : σ) (marks : List String) (exchanges : List Exchange) :
    Course σ :=
  ⟨s.gist, api, marks, exchanges⟩

section

variable {σ : Type} (service : Service σ) (api : σ) (marks : List String) (exchanges : List Exchange)

theorem leads_unit {m : Machine} (hp : s.pending = none) (hm : s.machine = some m) (now : Nat) :
    (s.course api marks exchanges).Leads service
      (((s.driven id (m.step Console.host s.console)).afterStep now
        (m.step Console.host s.console).1).2.course api
          (marks ++ (m.step Console.host.watched ⟨s.console, []⟩).2.2.marks) exchanges) := by
  refine .single ?_
  have hs := settle_of_free hp
  obtain ⟨htick, hmarks⟩ := tick_gist hp now
  simp only [Course.next, course, pending_gist, hp, Option.map_none, htick, hmarks]
  simp only [tick, goOn_of_settled hs hm, tickMarks, Session.marks, hs, hm]

theorem leads_bounded (budget : Nat) {m : Machine} (hp : s.pending = none)
    (hm : s.machine = some m) (now : Nat) :
    (s.course api marks exchanges).Leads service
      (((s.driven id (m.runBounded Console.host budget s.console)).afterStep now
        (m.runBounded Console.host budget s.console).1).2.course api
          (marks ++ (m.runBounded Console.host.watched budget ⟨s.console, []⟩).2.2.marks)
            exchanges) := by
  induction budget generalizing s m marks with
  | zero =>
    by_cases hf : m.status = .finished
    · have hunit := leads_unit service api marks exchanges hp hm now
      simpa [Machine.step, Machine.runBounded, Machine.isFinished, hf] using hunit
    · have hsame : s.driven id (.ok .continue, m, s.console) = s := by
        simp only [driven, id, ← hm]
      have hready : m.isFinished = false := by simp [Machine.isFinished, hf]
      simp only [Machine.runBounded, hready, Bool.false_eq_true, if_false, hsame, afterStep,
        Watched.marks, List.filterMap_nil, List.append_nil]
      exact .refl
  | succ budget ih =>
    have hunit := leads_unit service api marks exchanges hp hm now
    have hhost := (Script.sees_host Console.host).step m ⟨s.console, []⟩
    rcases hstep : m.step Console.host.watched ⟨s.console, []⟩ with ⟨step, m', w⟩
    simp only [hstep] at hhost hunit
    simp only [hhost] at hunit
    simp only [Machine.runBounded, hhost, hstep]
    rcases step with e | (_ | _ | _ | _)
    case ok.continue =>
      -- the rest of the slice begins where the unit has left the run
      have hrest := (Script.sees_since Console.host w.trace).runBounded budget m' ⟨w.host, []⟩
      have hrun := ih (marks ++ w.marks) (s := s.driven id (.ok .continue, m', w.host)) hp rfl
      rw [w.since_trace] at hrest
      dsimp only
      rw [hrest, w.marks_since, ← List.append_assoc]
      exact hunit.trans hrun
    all_goals exact hunit

theorem next_of_settled {p : PendingCall} (hp : s.pending = some p)
    (hsettled : p.errand.isSettled = true) : (s.course api marks exchanges).next service =
      s.settle.2.course api marks exchanges := by
  have hsame : p.gist.errand.isSettled = true := hsettled
  simp only [Course.next, course, pending_gist, hp, Option.map_some, hsame, if_true, settle_gist,
    gist_gist]

/-- An act of the awaited call is the next thing until then. -/
theorem next_of_unsettled {p : PendingCall} (hp : s.pending = some p)
    (hsettled : p.errand.isSettled = false) : (s.course api marks exchanges).next service =
      (({ s with pending := some { p with
          errand := (s.bridge.fire service.noting p.errand (api, [])).1 } } : Session).course
        (s.bridge.fire service.noting p.errand (api, [])).2.1 marks
        (exchanges ++ (s.bridge.fire service.noting p.errand (api, [])).2.2)) := by
  have hsame : p.gist.errand.isSettled = false := hsettled
  obtain ⟨hstage, hrest⟩ := s.bridge.fire_gist service.noting p.errand (api, [])
  simp only [Course.next, course, pending_gist, hp, Option.map_some, hsame, Bool.false_eq_true, if_false]
  simp only [hrest, gist, Option.map_some, PendingCall.gist, hstage]
  rfl

theorem leads_settle (s : Session) : (s.course api marks exchanges).Leads service
    (s.settle.2.course api marks exchanges) := by
  cases hp : s.pending with
  | none =>
    rw [settle_of_free hp]
    exact .refl
  | some p =>
    cases hsettled : p.errand.isSettled with
    | true => exact .single (next_of_settled service api marks exchanges hp hsettled)
    | false =>
      have hresult : p.errand.result? = none := by simpa [Errand.isSettled] using hsettled
      have hstays : s.settle.2 = s := by
        simp only [settle, hp, PendingCall.take, hresult]
        rw [← hp]
      rw [hstays]
      exact .refl

theorem leads_goOn {run : Machine → Console → Except Script.Error Step × Machine × Console}
    {watched : Machine → Watched Console → Except Script.Error Step × Machine × Watched Console}
    {after : Session → Session} (h : s.Matched)
    (drive : ∀ {t : Session} {m : Machine}, t.pending = none → t.machine = some m →
      (t.course api marks exchanges).Leads service
        (((t.driven after (run m t.console)).afterStep now (run m t.console).1).2.course api
          (marks ++ (watched m ⟨t.console, []⟩).2.2.marks) exchanges)) :
    (s.course api marks exchanges).Leads service
      ((s.goOn now run after).2.course api (marks ++ s.marks watched) exchanges) := by
  have hsettle := leads_settle service api marks exchanges s
  rcases hs : s.settle with ⟨progress, t⟩
  rw [hs] at hsettle
  cases progress with
  | some progress =>
    simp only [goOn, Session.marks, hs, List.append_nil]
    exact hsettle
  | none =>
    cases hm : t.machine with
    | none =>
      simp only [goOn, Session.marks, hs, hm, List.append_nil]
      exact hsettle
    | some m =>
      simp only [goOn_of_settled hs hm, Session.marks, hs, hm]
      exact hsettle.trans (drive (settle_pending h hs) hm)

theorem leads_tick (h : s.Matched) (now : Nat) : (s.course api marks exchanges).Leads service
    ((s.tick now).2.course api (marks ++ s.tickMarks) exchanges) :=
  leads_goOn service api marks exchanges h fun hp hm =>
    leads_unit service api marks exchanges hp hm now

theorem leads_slice (h : s.Matched) (now : Nat) : (s.course api marks exchanges).Leads service
    ((s.runSlice now).2.course api (marks ++ s.sliceMarks) exchanges) := by
  refine leads_goOn service api marks exchanges h fun hp hm => ?_
  have hbounded := leads_bounded service api marks exchanges s.sliceBudget hp hm now
  unfold course at hbounded ⊢
  rw [afterStep_gist] at hbounded ⊢
  exact hbounded

theorem leads_call {p : PendingCall} (hp : s.pending = some p) :
    (s.course api marks exchanges).Leads service
      (({ s with pending := some { p with
          errand := (s.bridge.fire service.noting p.errand (api, [])).1 } } : Session).course
        (s.bridge.fire service.noting p.errand (api, [])).2.1 marks
        (exchanges ++ (s.bridge.fire service.noting p.errand (api, [])).2.2)) := by
  cases hsettled : p.errand.isSettled with
  | true =>
    have hstays : s.bridge.fire service.noting p.errand (api, []) = (p.errand, api, []) := by
      unfold Errand.isSettled Errand.result? at hsettled
      split at hsettled
      next hstage => simp only [Bridge.fire, hstage]
      next => cases hsettled
    rw [hstays, List.append_nil, ← hp]
    exact .refl
  | false => exact .single (next_of_unsettled service api marks exchanges hp hsettled)

end

theorem course_next {σ : Type} (service : Service σ) (api : σ) (marks : List String)
    (exchanges : List Exchange) (hm : s.machine = none) (hp : s.pending = none) :
    (s.course api marks exchanges).next service = s.course api marks exchanges := by
  have hs := settle_of_free hp
  obtain ⟨htick, hmarks⟩ := tick_gist hp 0
  simp only [Course.next, course, pending_gist, hp, Option.map_none, htick, hmarks]
  simp only [tick, goOn, tickMarks, Session.marks, hs, hm, List.append_nil]

theorem afterStep_console {step : Except Script.Error Step}
    (h : (s.afterStep now step).2.isActive = true) : (s.afterStep now step).2.console = s.console := by
  cases step with
  | error => cases h
  | ok step =>
    cases step with
    | «continue» | suspend | pending => rfl
    | done => cases h

theorem deliver_highlight {v : Script.Value} (h : (s.deliver v).2.isActive = true) :
    s.isActive = true ∧ (s.deliver v).2.console.highlight = s.console.highlight := by
  unfold deliver at h ⊢
  split at h
  next => exact ⟨h, rfl⟩
  next m hm =>
    split at h
    next => exact ⟨by simp [isActive, hm], rfl⟩
    next => cases h

theorem settle_highlight (h : s.settle.2.isActive = true) :
    s.isActive = true ∧ s.settle.2.console.highlight = s.console.highlight := by
  unfold settle at h ⊢
  split at h
  next => exact ⟨h, rfl⟩
  next p hp =>
    split at h
    next => exact ⟨h, rfl⟩
    next => exact deliver_highlight h
    next =>
      unfold deliverFailure at h ⊢
      dsimp only at h ⊢
      split at h
      next => cases h
      next => exact deliver_highlight h

end Session

/-- While a run is active, the block that is shown is the one that it has marked last. -/
def Course.Shown {σ : Type} (x : Course σ) : Prop :=
  x.session.isActive = true → x.session.console.highlight.current = x.marks.getLast?

theorem Course.Shown.next {σ : Type} {service : Service σ} {x : Course σ} (h : x.Shown) :
    (x.next service).Shown := by
  obtain ⟨s, api, marks, exchanges⟩ := x
  intro hactive
  unfold Course.next at hactive ⊢
  cases hp : s.pending with
  | none =>
    have hs := Session.settle_of_free hp
    simp only [hp] at hactive ⊢
    cases hm : s.machine with
    | none =>
      simp [Session.tick, Session.goOn, hs, hm, Session.gist, Session.isActive] at hactive
    | some m =>
      simp only [Session.tick, Session.goOn_of_settled hs hm, Session.tickMarks, Session.marks, hs, hm]
        at hactive ⊢
      have hconsole := Session.afterStep_console hactive
      have hbefore := h (by simp [Session.isActive, hm])
      show (Session.afterStep _ 0 _).2.console.highlight.current = _
      rw [hconsole, List.getLast?_append, ← hbefore]
      exact m.step_current s.console
  | some p =>
    simp only [hp] at hactive ⊢
    by_cases hsettled : p.errand.isSettled = true
    · simp only [hsettled, if_true] at hactive ⊢
      obtain ⟨hbefore, hsame⟩ := Session.settle_highlight hactive
      exact (congrArg Highlight.current hsame).trans (h hbefore)
    · simp only [hsettled, if_false, Bool.false_eq_true] at hactive ⊢
      exact h hactive

theorem Course.Leads.shown {σ : Type} {service : Service σ} {x y : Course σ} (h : x.Leads service y)
    (hx : x.Shown) : y.Shown := by
  induction h with
  | refl => exact hx
  | tail _ h ih => exact h ▸ ih.next

theorem Course.Leads.stays {σ : Type} {service : Service σ} {x y : Course σ} (h : x.Leads service y)
    (hx : x.next service = x) : y = x := by
  induction h with
  | refl => rfl
  | tail _ h ih => rw [← h, ih, hx]

/-- Of two states of a course one leads to the other. -/
theorem Course.Leads.total {σ : Type} {service : Service σ} {x y z : Course σ}
    (hy : x.Leads service y) (hz : x.Leads service z) : y.Leads service z ∨ z.Leads service y := by
  have hunique : Relator.RightUnique fun x y : Course σ => x.next service = y :=
    fun _ _ _ h h' => h.symm.trans h'
  exact Relation.ReflTransGen.total_of_right_unique hunique hy hz

/-- A course comes to one end only. -/
theorem Course.Leads.unique {σ : Type} {service : Service σ} {x y z : Course σ}
    (hy : x.Leads service y) (hz : x.Leads service z) (endy : y.next service = y)
    (endz : z.next service = z) : y = z := by
  rcases hy.total hz with h | h
  · exact (h.stays endy).symm
  · exact h.stays endz

theorem Course.Leads.marks_prefix {σ : Type} {service : Service σ} {x y : Course σ}
    (h : x.Leads service y) : x.marks <+: y.marks := by
  induction h with
  | refl => exact List.prefix_rfl
  | @tail y z _ h ih =>
    refine ih.trans ?_
    subst h
    unfold Course.next
    split
    · exact List.prefix_append _ _
    · split <;> exact List.prefix_rfl

end ScopeBlocks
