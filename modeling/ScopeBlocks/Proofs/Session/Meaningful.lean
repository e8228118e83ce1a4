import ScopeBlocks.Proofs.Device.Numbers
import ScopeBlocks.Proofs.Session.OneAtATime

/-! Only calls with meaningful numbers are carried out. The machine of a session is one that a driver may bring
about, so that the calls which it makes have passed the check; and only for these the service is asked. -/
namespace ScopeBlocks

open Script (Machine Step AsyncCall Primitive Value Host Tape)

namespace Script.Machine

theorem Reached.runBounded {program : Script.Program} {σ : Type} (host : Host σ) (budget : Nat) {m : Machine}
    (h : Reached program m) (s : σ) : Reached program (m.runBounded host budget s).2.1 := by
  induction budget generalizing m s with
  | zero => exact h
  | succ budget ih =>
    have hstep := h.step host s
    unfold Machine.runBounded
    split
    next m' s' heq =>
      rw [heq] at hstep
      exact ih hstep s'
    next => exact hstep

end Script.Machine

namespace Session

variable {s : Session}

/-- The machine of a session, if it has one, is a machine of some program. -/
def Underway (s : Session) : Prop := ∀ m, s.machine = some m → ∃ program, Machine.Reached program m

theorem underway_of_idle (h : s.machine = none) : s.Underway := by
  intro m hm
  rw [h] at hm
  cases hm

theorem Underway.congr {t : Session} (h : s.Underway) (hm : t.machine = s.machine) : t.Underway := by
  intro m
  rw [hm]
  exact h m

theorem Settles.underway {r : Option Progress × Session} (hr : s.Settles r) (h : s.Underway) :
    r.2.Underway := by
  cases hr with
  | idle => exact h
  | waiting => exact h
  | @resumed p m hp he hm hstatus v failures lines =>
    rintro _ ⟨⟩
    obtain ⟨program, hreached⟩ := h m hm
    exact ⟨program, hreached.resolve (Machine.resolve?_of_awaiting hstatus v)⟩
  | ended => exact underway_of_idle rfl

theorem Underway.afterStep (h : s.Underway) (now : Nat) (step : Except Script.Error Step) :
    (s.afterStep now step).2.Underway := by
  cases step with
  | error => exact underway_of_idle rfl
  | ok step =>
    cases step with
    | «continue» | suspend | pending => exact h
    | done => exact underway_of_idle rfl

theorem Underway.goOn {run : Machine → Console → Except Script.Error Step × Machine × Console}
    {after : Session → Session} (hd : Drives run after)
    (hrun : ∀ {program m} c, Machine.Reached program m → Machine.Reached program (run m c).2.1)
    (h : s.Underway) (hmatched : s.Matched) (now : Nat) : (s.goOn now run after).2.Underway := by
  have hgoes := goOn_goesOn run after now hmatched
  generalize s.goOn now run after = r, s.called? run = call at hgoes
  cases hgoes with
  | stays hs => exact hs.underway h
  | idle => exact h
  | @runs t m hs hm hp free =>
    obtain ⟨program, hreached⟩ := hs.underway h m hm
    refine Underway.afterStep (fun m' hm' => ?_) now _
    rw [hd.driven_machine] at hm'
    cases hm'
    exact ⟨program, hrun t.console hreached⟩

theorem Underway.start (h : s.Underway) : s.start.2.Underway := by
  unfold Session.start
  split
  · exact h
  · dsimp only
    split
    next program _ =>
      rintro _ ⟨⟩
      exact ⟨program, .start⟩
    next => exact underway_of_idle rfl

theorem Underway.operate (h : s.Underway) (hmatched : s.Matched) (o : Operation) :
    (s.operate o).Underway := by
  cases o with
  | apply change =>
    cases change with
    | view => exact h
    | program w => exact underway_of_idle rfl
  | start => exact h.start
  | tick now => exact h.goOn drives_tick (fun c hm => hm.step Console.host c) hmatched now
  | runSlice now =>
    exact h.goOn (drives_runSlice _) (fun c hm => hm.runBounded Console.host s.sliceBudget c) hmatched now
  | reset => exact underway_of_idle rfl
  | clearPause => exact h

theorem Underway.pending (h : s.Underway) (hmatched : s.Matched) {p : PendingCall}
    (hp : s.pending = some p) : p.call.Meaningful := by
  obtain ⟨-, m, hm, hstatus⟩ := hmatched.awaited hp
  obtain ⟨program, hreached⟩ := h m hm
  exact hreached.vetted.meaningful hstatus

end Session

namespace Observed

variable {σ : Type} {service : Service σ}

/-- The calls that have been made since the run began are meaningful. -/
structure Careful (x : Observed σ) : Prop where
  matched : x.session.Matched
  underway : x.session.Underway
  calls : ∀ call, .issued call ∈ x.events → call.Meaningful

theorem Careful.operate {x : Observed σ} (h : x.Careful) (o : Operation) : (x.operate o).Careful := by
  have hmatched := Session.operate_matched h.matched o
  have hunderway := h.underway.operate h.matched o
  refine ⟨hmatched, hunderway, fun call hcall => ?_⟩
  unfold Observed.operate at hcall
  simp only [List.mem_append, List.mem_map, Option.mem_toList, Happening.issued.injEq, exists_eq_right,
    reduceCtorEq, and_false, exists_false, or_false] at hcall
  rcases hcall with hcall | hcall
  · split at hcall
    · cases hcall
    · exact h.calls call hcall
  · obtain ⟨now, hp⟩ := Session.operate_issued h.matched hcall
    exact hunderway.pending hmatched hp

theorem Careful.callOn {x : Observed σ} (h : x.Careful) : (x.callOn service).Careful := by
  unfold Observed.callOn
  cases hp : x.session.pending with
  | none => exact h
  | some p =>
    obtain ⟨hd, m, hm, hstatus⟩ := h.matched.awaited hp
    refine ⟨Session.matched_of_awaited hm rfl hstatus hd, h.underway.congr rfl, fun call hcall => ?_⟩
    simp only [List.mem_append, List.mem_map, reduceCtorEq, and_false, exists_false, or_false] at hcall
    exact h.calls call hcall

variable (service) in
theorem careful_after (settings : Settings) (prompter : Prompter) (api : σ) (moves : List Move) :
    (after service settings prompter api moves).Careful := by
  have hstart : Careful (⟨Session.new settings prompter, api, []⟩ : Observed σ) :=
    ⟨Session.matched_of_idle rfl rfl, Session.underway_of_idle rfl, by rintro call ⟨⟩⟩
  unfold after
  generalize (⟨Session.new settings prompter, api, []⟩ : Observed σ) = x at hstart
  induction moves generalizing x with
  | nil => exact hstart
  | cons move moves ih =>
    cases move with
    | operation o => exact ih _ (hstart.operate o)
    | call => exact ih _ hstart.callOn

end Observed

/-- Whatever a driver has done with a program before, the calls that it waits for are meaningful, and so is all
that becomes of their numbers; where a call is met with a number without a meaning the run ends with its
misuse, and nothing is done afterwards. Whatever has been done with a session, the service has been asked on
behalf of meaningful calls only. -/
theorem meaningful_numbers :
    (∀ {program : Script.Program} {m : Machine}, Machine.Reached program m →
      (∀ call, m.status = .awaiting call →
        call.Meaningful ∧ ∀ b : Bridge, b.Conveys call (b.goal call)) ∧
      ∀ {σ : Type} (host : Host σ) (s : σ),
        (∀ call, (m.step host s).1 = .ok (.suspend call) → call.Meaningful) ∧
        ∀ (p : Primitive) (args : List Value) (tape : Tape σ), m.Meets host s p args tape →
          p.Meaningless args → ∃ cause,
            m.step host s = (.error (.misuse p cause), m.halt, tape.host) ∧ m.halt.Inert) ∧
    ∀ {σ : Type} (service : Service σ) (settings : Settings) (prompter : Prompter) (api : σ)
      (moves : List Move),
      let x := Observed.after service settings prompter api moves
      let b := Bridge.ofSettings settings
      (∀ p, x.session.pending = some p → p.call.Meaningful) ∧
        ∃ turns : List Turn, x.events = turns.flatMap Turn.events ∧
          ∀ t ∈ turns, t.Own b ∧ t.call.Meaningful ∧ b.Conveys t.call (b.goal t.call) := by
  refine ⟨fun {program m} h => ⟨fun call hcall => ?_, fun host s => ⟨fun call hcall => ?_, ?_⟩⟩,
    fun service settings prompter api moves => ⟨fun p hp => ?_, ?_⟩⟩
  · have hmeaningful := h.vetted.meaningful hcall
    exact ⟨hmeaningful, fun b => b.conveys_goal hmeaningful⟩
  · have hstepped := m.stepped host s
    rw [hcall] at hstepped
    cases hstepped with
    | suspended keeps waits => exact (h.step host s).vetted.meaningful waits
  · intro p args tape hmeets hargs
    obtain ⟨cause, hstep⟩ := h.vetted.misused hmeets hargs
    exact ⟨cause, hstep, Machine.inert_of_finished rfl⟩
  · have hcareful := Observed.careful_after service settings prompter api moves
    exact hcareful.underway.pending hcareful.matched hp
  · have hcareful := Observed.careful_after service settings prompter api moves
    have hvalid := Observed.valid_after service settings prompter api moves
    obtain ⟨turns, hevents, hown, -⟩ := hvalid.orderly.turns
    refine ⟨turns, hevents, fun t ht => ?_⟩
    have hissued : Happening.issued t.call ∈
        (Observed.after service settings prompter api moves).events := by
      rw [hevents]
      exact List.mem_flatMap.2 ⟨t, ht, List.mem_cons_self⟩
    have hmeaningful := hcareful.calls t.call hissued
    exact ⟨hown t ht, hmeaningful, Bridge.conveys_goal _ hmeaningful⟩

/-- A script that waits for as long as it is told. -/
def askedWait : Script.Program :=
  [.eval (.call .waitSeconds [.call .prompt [.literal (.string "seconds"), .literal (.string "number")]])]

def answering (answer : String) : Host Unit := ⟨fun _ s => s, fun _ _ s => (some answer, s), fun _ s => s⟩

/-- The wait begins after one answer, and another one ends the run. -/
theorem askedWait_checked :
    ((Machine.ofProgram askedWait).step (answering "2") ()).1 = .ok (.suspend (.wait 2)) ∧
      (AsyncCall.wait 2).Meaningful ∧
      ∃ cause, (Machine.ofProgram askedWait).step (answering "inf") () =
        (.error (.misuse .waitSeconds cause), (Machine.ofProgram askedWait).halt, ()) := by
  obtain ⟨-, hsteps⟩ := meaningful_numbers.1 (.start : Machine.Reached askedWait _)
  have hwaits : ((Machine.ofProgram askedWait).step (answering "2") ()).1 = .ok (.suspend (.wait 2)) := by
    decide +kernel
  have hmeets : (Machine.ofProgram askedWait).Meets (answering "inf") () .waitSeconds
      [.number (Script.numberAnswered "inf")]
      ⟨⟨[.number (Script.numberAnswered "inf")], []⟩, ()⟩ := ⟨rfl, .bind (Script.Expr.meets_call rfl)⟩
  have hinfinite : (Script.numberAnswered "inf").isFinite = false := by decide +kernel
  have hmeaningless : Primitive.waitSeconds.Meaningless [.number (Script.numberAnswered "inf")] := by
    refine ⟨0, List.mem_cons_self, _, rfl, ?_⟩
    rintro x ⟨⟩ hfinite
    rw [hinfinite] at hfinite
    cases hfinite
  obtain ⟨cause, hstep, -⟩ := (hsteps (answering "inf") ()).2 _ _ _ hmeets hmeaningless
  exact ⟨hwaits, (hsteps (answering "2") ()).1 _ hwaits, cause, hstep⟩

end ScopeBlocks
