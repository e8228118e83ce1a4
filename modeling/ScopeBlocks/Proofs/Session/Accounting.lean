import Mathlib.Data.List.Basic
import ScopeBlocks.Proofs.Session.Chronicle
import ScopeBlocks.Proofs.Session.Held

/-! Whatever is done with a session, its transcript, its outcome and its count of failures are those of the
chronicle. Each part of an operation is accounted for: settling, the drive of the machine, what the last
step comes to. -/
namespace ScopeBlocks

open Script (Machine Step AsyncCall Effect Watched Host Sees)

section

variable {policy : FailurePolicy} {entries : List Entry} {s : Session}

namespace Session

theorem Unclosed.afterStep (h : s.Unclosed policy entries) (ha : s.isActive = true) (now : Nat)
    (step : Except Script.Error Step) :
    (s.afterStep now step).2.Accounted policy (entries ++ stepEntries step) := by
  have hactive : ∀ t : Session, t.machine = s.machine → t.isActive = false →
      t.console.highlight = .none := by
    intro t ht hi
    rw [isActive, ht, ← isActive, ha] at hi
    cases hi
  cases step with
  | error e =>
    refine h.finish (e := .halted e.message) (by simp [Entry.lines]) ?_
    simp [outcome?]
  | ok step =>
    cases step with
    | «continue» | pending =>
      simpa [stepEntries, Session.afterStep] using h.accounted (hactive s rfl)
    | suspend call =>
      have hissued := h.append [.issued call] (t := (s.afterStep now (.ok (.suspend call))).2)
        (by simp [Entry.lines, Session.afterStep]) rfl (by simp [Entry.closes, Entry.isFailure])
        (by simp [Entry.isFailure, Session.afterStep])
      exact hissued.accounted (hactive _ rfl)
    | done =>
      refine h.finish (e := .done) (by simp [Entry.lines]) ?_
      simp [outcome?, h.failures, Entry.isFailure]

/-! Settling. -/

/-- The session with the failure of its call noted. -/
def noted (s : Session) (call : AsyncCall) (message : String) : Session :=
  { s with
    pending := none
    failedActions := s.failedActions + 1
    console := s.console.log s!"Action {call.text} failed: {message}" }

/-- The session whose machine goes on with a value. -/
def resumed (s : Session) (m : Machine) (v : Script.Value) : Session :=
  { s with
    pending := none
    machine := some { m with recorded := m.recorded ++ [v], status := .ready } }

/-- What is taken over and what settling then comes to. A failure ends the run where failures abort runs,
and else the machine takes it as a value. -/
inductive Takes (s : Session) : List Entry → Option Progress × Session → Prop
  | idle (hp : s.pending = none) : Takes s [] (none, s)
  | waiting {p : PendingCall} (hp : s.pending = some p) (hr : p.take.1 = none) :
      Takes s [] (some .waiting, s)
  | completed {p : PendingCall} {m : Machine} {v : Script.Value} (hp : s.pending = some p)
      (hr : p.take.1 = some (.completed v)) (hm : s.machine = some m) :
      Takes s [.resolved p.call (.completed v)] (none, s.resumed m v)
  | failed {p : PendingCall} {m : Machine} {message : String} (hp : s.pending = some p)
      (hr : p.take.1 = some (.failed message)) (hm : s.machine = some m) (hc : s.policy = .continue) :
      Takes s [.resolved p.call (.failed message)]
        (none, (s.noted p.call message).resumed m (.error message))
  | aborted {p : PendingCall} {message : String} (hp : s.pending = some p)
      (hr : p.take.1 = some (.failed message)) (ha : s.policy = .abort) :
      Takes s [.resolved p.call (.failed message)]
        (some .finished, (s.noted p.call message).finish (.failed s!"{p.call.text} failed: {message}"))

theorem settle_takes (h : s.Matched) : s.Takes s.settledEntries s.settle := by
  unfold settledEntries settle
  cases hp : s.pending with
  | none => exact .idle hp
  | some p =>
    obtain ⟨hd, m, hm, hstatus⟩ := h.awaited hp
    dsimp only
    rcases htake : p.take with ⟨_ | result, p'⟩
    · obtain rfl : p' = p := by
        unfold PendingCall.take at htake
        split at htake
        · exact (Prod.mk.inj htake).2.symm
        · cases htake
      have hsame : { s with pending := some p' } = s := by rw [← hp]
      dsimp only
      rw [hsame]
      exact .waiting hp (by rw [htake])
    · have hr : p.take.1 = some result := by rw [htake]
      cases result with
      | completed v =>
        dsimp only
        rw [deliver_of_awaiting (s := { s with pending := none }) hm hstatus]
        exact .completed hp hr hm
      | failed message =>
        dsimp only [deliverFailure]
        split
        next ha => exact .aborted hp hr ha
        next hc =>
          rw [deliver_of_awaiting (m := m) ?_ hstatus]
          · exact .failed hp hr hm hc
          · exact hm

theorem Takes.unclosed {new : List Entry} {t : Session} (h : s.Takes new (none, t))
    (hu : s.Unclosed s.policy entries) : t.Unclosed s.policy (entries ++ new) := by
  cases h with
  | idle => simpa using hu
  | completed =>
    exact hu.append _ (by simp [resumed, Entry.lines]) rfl (by simp [Entry.closes, Entry.isFailure])
      rfl
  | failed hp hr hm hc =>
    exact hu.append _ rfl rfl (by simp [Entry.closes, Entry.isFailure, hc]) rfl

theorem Takes.stays {new : List Entry} {progress : Progress} {t : Session}
    (h : s.Takes new (some progress, t)) (hu : s.Unclosed s.policy entries) (ha : s.isActive = true) :
    t.Accounted s.policy (entries ++ new) := by
  cases h with
  | waiting => simpa using hu.accounted fun hi => by rw [ha] at hi; cases hi
  | aborted hp hr habort => exact hu.finish rfl (by simp [outcome?, habort])

theorem Takes.machine {new : List Entry} {t : Session} (h : s.Takes new (none, t)) :
    t.isActive = s.isActive := by
  cases h with
  | idle => rfl
  | completed hp hr hm => simp [isActive, resumed, hm]
  | failed hp hr hm => simp [isActive, resumed, noted, hm]

theorem settle_failed (h : s.Matched) {p : PendingCall} {message : String} (hp : s.pending = some p)
    (hr : p.take.1 = some (.failed message)) :
    (s.policy = .abort → s.settle = (some .finished,
      (s.noted p.call message).finish (.failed s!"{p.call.text} failed: {message}"))) ∧
    (s.policy = .continue → ∃ m, s.machine = some m ∧
      s.settle = (none, (s.noted p.call message).resumed m (.error message))) := by
  have htakes := settle_takes h
  generalize s.settle = r, s.settledEntries = new at htakes
  cases htakes with
  | idle hn => rw [hp] at hn; cases hn
  | waiting hq hn =>
    obtain rfl := Option.some.inj (hp.symm.trans hq)
    rw [hr] at hn
    cases hn
  | completed hq hv =>
    obtain rfl := Option.some.inj (hp.symm.trans hq)
    rw [hr] at hv
    cases hv
  | @failed q m _ hq hv hm hc =>
    obtain rfl := Option.some.inj (hp.symm.trans hq)
    rw [hr] at hv
    cases hv
    exact ⟨fun ha => absurd ha (by simp [hc]), fun _ => ⟨m, hm, rfl⟩⟩
  | aborted hq hv ha =>
    obtain rfl := Option.some.inj (hp.symm.trans hq)
    rw [hr] at hv
    cases hv
    exact ⟨fun _ => rfl, fun hc => absurd hc (by simp [ha])⟩

/-! Going on. -/

end Session

def Console.written (lines : List String) (w : Watched Console) : Watched Console :=
  { w with host.transcript := lines ++ w.trace.filterMap Effect.line? }

theorem Console.sees_written (lines : List String) :
    Sees Console.host.watched Console.host.watched (Console.written lines) where
  print text w := by
    simp [written, host, log, Host.watched, Watched.note, Effect.line?]
  prompt message numeric w := by
    simp [written, host, Host.watched, Watched.note, Effect.line?]
  mark id w := by
    simp [written, host, Host.watched, Watched.note, Effect.line?]

/-- A drive of a machine and the same drive watched. -/
structure Watches (run : Machine → Console → Except Script.Error Step × Machine × Console)
    (watched : Machine → Watched Console → Except Script.Error Step × Machine × Watched Console) :
    Prop where
  run : ∀ m c, run m c = ((watched m ⟨c, []⟩).1, (watched m ⟨c, []⟩).2.1, (watched m ⟨c, []⟩).2.2.host)
  transcript : ∀ m c, (watched m ⟨c, []⟩).2.2.host.transcript =
    c.transcript ++ (watched m ⟨c, []⟩).2.2.trace.filterMap Effect.line?

theorem watches_step : Watches (·.step Console.host ·) (·.step Console.host.watched ·) where
  run m c := (Script.sees_host Console.host).step m ⟨c, []⟩
  transcript m c := by
    have hwritten := (Console.sees_written c.transcript).step m ⟨c, []⟩
    have hsame : Console.written c.transcript ⟨c, []⟩ = ⟨c, []⟩ := by simp [Console.written]
    rw [hsame] at hwritten
    exact congrArg (·.2.2.host.transcript) hwritten

theorem watches_runBounded (budget : Nat) : Watches (·.runBounded Console.host budget ·)
    (·.runBounded Console.host.watched budget ·) where
  run m c := (Script.sees_host Console.host).runBounded budget m ⟨c, []⟩
  transcript m c := by
    have hwritten := (Console.sees_written c.transcript).runBounded budget m ⟨c, []⟩
    have hsame : Console.written c.transcript ⟨c, []⟩ = ⟨c, []⟩ := by simp [Console.written]
    rw [hsame] at hwritten
    exact congrArg (·.2.2.host.transcript) hwritten

theorem flatMap_acted (effects : List Effect) :
    (effects.map Entry.acted).flatMap Entry.lines = effects.filterMap Effect.line? := by
  rw [List.flatMap_map, List.filterMap_eq_flatMap_toList]
  rfl

namespace Session

/-- Whether a second session has the run and the account of a first one. -/
def Kept (s t : Session) : Prop :=
  t.isActive = s.isActive ∧ t.outcome = s.outcome ∧ t.failedActions = s.failedActions ∧
    t.console.transcript = s.console.transcript

theorem kept_self (s : Session) : s.Kept (id s) := ⟨rfl, rfl, rfl, rfl⟩

theorem clearPause_kept (s : Session) : s.Kept s.clearPause := ⟨rfl, rfl, rfl, rfl⟩

/-- What a session that goes on has come to is accounted for. -/
theorem goOn_accounted {run : Machine → Console → Except Script.Error Step × Machine × Console}
    {watched : Machine → Watched Console → Except Script.Error Step × Machine × Watched Console}
    {after : Session → Session} (hw : Watches run watched)
    (hafter : ∀ s : Session, s.Kept (after s)) {settings : Settings} (hh : s.Held settings)
    (h : s.Accounted s.policy entries) (now : Nat) :
    (s.goOn now run after).2.Accounted s.policy
      (entries ++ (s.settledEntries ++ s.drivenEntries watched)) := by
  have htakes := settle_takes hh.matched
  unfold goOn drivenEntries
  cases hm : s.machine with
  | none =>
    have hp : s.pending = none := hh.pending_none (by simp [isActive, hm])
    simpa [settle, settledEntries, hp, hm] using h
  | some m =>
    have ha : s.isActive = true := by simp [isActive, hm]
    have hu := h.unclosed (hh.outcome_none hm) ha
    -- a call that has come back is taken first; the machine goes on only if that has not ended the run
    generalize s.settle = r, s.settledEntries = new at htakes
    rcases r with ⟨_ | progress, t⟩
    · have hactive := htakes.machine.trans ha
      obtain ⟨m', hm'⟩ := Option.isSome_iff_exists.1 hactive
      dsimp only
      rw [hm']
      dsimp only
      rw [hw.run m' t.console]
      generalize hr : watched m' ⟨t.console, []⟩ = r
      obtain ⟨step, m'', w⟩ := r
      have htranscript := hw.transcript m' t.console
      rw [hr] at htranscript
      dsimp only at htranscript ⊢
      obtain ⟨hmachine, houtcome, hfailures, hlines⟩ :=
        hafter { t with machine := some m'', console := w.host }
      have hdriven := (htakes.unclosed hu).append (w.trace.map .acted)
        (t := after { t with machine := some m'', console := w.host })
        (by rw [hlines, htranscript, flatMap_acted]) houtcome
        (by simp [Entry.closes, Entry.isFailure])
        (by rw [hfailures]; simp [List.countP_map, Function.comp_def, Entry.isFailure])
      have hstep := hdriven.afterStep (hmachine.trans rfl) now step
      simpa using hstep
    · simpa using htakes.stays hu ha

theorem operate_accounted {settings : Settings} (hh : s.Held settings)
    (h : s.Accounted s.policy entries) (o : Operation) : (s.operate o).Accounted s.policy
      ((if s.begins o || o.edits then [] else entries) ++ s.newEntries o) := by
  cases o with
  | apply change =>
    cases change with
    | view =>
      have hview : (s.operate (.apply .view)).Accounted s.policy entries := h
      simpa [begins, Operation.edits, newEntries] using hview
    | program w => exact ⟨rfl, rfl, by simp [begins, Operation.edits, newEntries], by rintro ⟨⟩,
      fun _ => rfl⟩
  | start =>
    rcases start_cases hh.matched with ⟨hactive, hs⟩ | ⟨hi, -⟩
    · simpa [operate, hs, begins, Operation.edits, newEntries, hactive] using h
    · have hcleared : s.cleared.Unclosed s.policy [] := ⟨rfl, rfl, by simp, rfl⟩
      simp only [operate, start_of_idle hi, begins, newEntries, hi, Bool.not_false, Bool.true_or, if_true,
        List.nil_append]
      cases s.program with
      | ok program => exact Unclosed.accounted ⟨rfl, rfl, by simp, rfl⟩ (by rintro ⟨⟩)
      | error message => exact hcleared.finish (e := .halted message) (by simp [Entry.lines]) rfl
  | tick now =>
    have htick : (s.goOn now (·.step Console.host ·) id).2.Accounted s.policy _ :=
      goOn_accounted watches_step (fun t => t.kept_self) hh h now
    exact htick
  | runSlice now =>
    have hslice : (s.goOn now (·.runBounded Console.host s.sliceBudget ·) clearPause).2.Accounted
        s.policy _ :=
      goOn_accounted (watches_runBounded s.sliceBudget) (fun t => t.clearPause_kept) hh h now
    exact hslice
  | reset =>
    have hreset : (s.operate .reset).Accounted s.policy entries :=
      ⟨h.transcript, h.outcome, h.last, by rintro ⟨⟩, fun _ => rfl⟩
    simpa [begins, Operation.edits, newEntries] using hreset
  | clearPause =>
    have hclear : (s.operate .clearPause).Accounted s.policy entries := by
      refine ⟨h.transcript, h.outcome, h.last, h.failures, fun hi => ?_⟩
      show s.console.highlight.clearPause = .none
      rw [h.highlight hi]
      rfl
    simpa [begins, Operation.edits, newEntries] using hclear

/-! A run that is not given up ends with an outcome. -/

theorem afterStep_over (ha : s.isActive = true) {now : Nat} {step : Except Script.Error Step}
    (hi : (s.afterStep now step).2.isActive = false) :
    (s.afterStep now step).2.outcome.isSome = true := by
  cases step with
  | error => rfl
  | ok step =>
    cases step with
    | done => rfl
    | «continue» | suspend | pending =>
      change s.isActive = false at hi
      rw [ha] at hi
      cases hi

theorem goOn_over {run : Machine → Console → Except Script.Error Step × Machine × Console}
    {after : Session → Session} (hd : Drives run after) (h : s.Matched) (ha : s.isActive = true)
    {now : Nat} (hi : (s.goOn now run after).2.isActive = false) :
    (s.goOn now run after).2.outcome.isSome = true := by
  have hgoes := goOn_goesOn run after now h
  generalize s.goOn now run after = r, s.called? run = call at hgoes hi
  cases hgoes with
  | stays hs =>
    cases hs with
    | waiting =>
      rw [ha] at hi
      cases hi
    | ended => rfl
  | idle => rw [ha] at hi; cases hi
  | runs => exact afterStep_over (by simp [isActive, hd.driven_machine]) hi

theorem operate_over (h : s.Matched) (ha : s.isActive = true) {o : Operation}
    (ho : Move.discards (.operation o) = false) (hi : (s.operate o).isActive = false) :
    (s.operate o).outcome.isSome = true := by
  cases o with
  | apply change =>
    cases change with
    | view =>
      change s.isActive = false at hi
      rw [ha] at hi
      cases hi
    | program => cases ho
  | start =>
    have hs : s.operate .start = s := by simp [operate, start, ha]
    rw [hs, ha] at hi
    cases hi
  | tick now => exact goOn_over drives_tick h ha hi
  | runSlice now => exact goOn_over (drives_runSlice _) h ha hi
  | reset => cases ho
  | clearPause =>
    change s.isActive = false at hi
    rw [ha] at hi
    cases hi

end Session

end

namespace Chronicled

variable {σ : Type} {service : Service σ}

structure Valid (settings : Settings) (x : Chronicled σ) : Prop where
  held : x.session.Held settings
  accounted : x.session.Accounted settings.failurePolicy x.entries

theorem Valid.operate {settings : Settings} {x : Chronicled σ} (h : x.Valid settings) (o : Operation) :
    (x.operate o).Valid settings := by
  refine ⟨Session.operate_held h.held o, ?_⟩
  have haccounted := h.accounted
  rw [← h.held.policy] at haccounted ⊢
  exact Session.operate_accounted h.held haccounted o

theorem Valid.callOn {settings : Settings} {x : Chronicled σ} (h : x.Valid settings) :
    (x.callOn service).Valid settings := by
  unfold Chronicled.callOn
  cases hp : x.session.pending with
  | none => exact h
  | some p =>
    obtain ⟨transcript, outcome, last, failures, highlight⟩ := h.accounted
    exact ⟨h.held.callOn hp _, transcript, outcome, last, failures, highlight⟩

theorem Valid.move {settings : Settings} {x : Chronicled σ} (h : x.Valid settings) (m : Move) :
    (x.move service m).Valid settings := by
  cases m with
  | operation o => exact h.operate o
  | call => exact h.callOn

variable (service) in
theorem valid_after (settings : Settings) (prompter : Prompter) (api : σ) (moves : List Move) :
    (after service settings prompter api moves).Valid settings := by
  have hstart : Valid settings (⟨Session.new settings prompter, api, []⟩ : Chronicled σ) :=
    ⟨Session.held_new settings prompter, rfl, rfl, by simp, by rintro ⟨⟩, fun _ => rfl⟩
  unfold after
  generalize (⟨Session.new settings prompter, api, []⟩ : Chronicled σ) = x at hstart
  induction moves generalizing x with
  | nil => exact hstart
  | cons m moves ih => exact ih _ (hstart.move m)

/-- A run that is not given up adds to its chronicle, and is over just where it has an outcome. -/
theorem Valid.goes {settings : Settings} {x : Chronicled σ} (h : x.Valid settings)
    (ha : x.session.isActive = true) {m : Move} (hm : m.discards = false) :
    (∃ new, (x.move service m).entries = x.entries ++ new ∧
      (x.move service m).session.console.transcript = x.session.console.transcript ++
        new.flatMap Entry.lines ++ (x.move service m).session.outcome.toList.map Outcome.banner) ∧
      ((x.move service m).session.isActive = false ↔
        (x.move service m).session.outcome.isSome = true) := by
  have hmoved : (x.move service m).Valid settings := h.move m
  obtain ⟨machine, hmachine⟩ := Option.isSome_iff_exists.1 ha
  have hu := h.accounted.unclosed (h.held.outcome_none hmachine) ha
  have hnew : ∃ new, (x.move service m).entries = x.entries ++ new := by
    cases m with
    | operation o =>
      have hedits : o.edits = false := by cases o <;> first | rfl | exact hm
      have hbegins : x.session.begins o = false := by
        cases o <;> simp [Session.begins, ha]
      refine ⟨x.session.newEntries o, ?_⟩
      simp [Chronicled.move, Chronicled.operate, hedits, hbegins]
    | call =>
      refine ⟨[], ?_⟩
      unfold Chronicled.move Chronicled.callOn
      dsimp only
      split <;> simp
  refine ⟨?_, fun hi => ?_, fun ho => ?_⟩
  · obtain ⟨new, hnew⟩ := hnew
    refine ⟨new, hnew, ?_⟩
    rw [hmoved.accounted.transcript, hnew, hu.transcript, List.flatMap_append]
  · cases m with
    | operation o => exact Session.operate_over h.held.matched ha hm hi
    | call =>
      have hsame : (x.move service .call).session.machine = x.session.machine := by
        unfold Chronicled.move Chronicled.callOn
        dsimp only
        split <;> rfl
      rw [Session.isActive, hsame, hmachine] at hi
      cases hi
  · rw [Session.isActive, (hmoved.held.ended ho).1]
    rfl

/-- After any moves, the transcript has the lines of the chronicle's entries in their order and then the
banner of the outcome, if there is one; the outcome is the one that the last entry brings, and no entry
before that one closes the run. A recorded outcome leaves no run, no call and no highlight, and a completed
run counts the failed calls of its chronicle. A run that is active only adds to its chronicle, and is over
with an outcome just as it ends by itself; when it is given up, there is none. A failure ends the run at
once where failures abort runs, whatever its machine would do next; else the machine goes on. -/
theorem transcript_accounts (service : Service σ) (settings : Settings) (prompter : Prompter) (api : σ)
    (moves : List Move) :
    let x := after service settings prompter api moves
    let s := x.session
    let policy := settings.failurePolicy
    (∀ o, s.outcome = some o → s.isActive = false ∧ s.pending = none ∧
      s.console.highlight = .none ∧ s.console.transcript.getLast? = some o.banner) ∧
    s.console.transcript = x.entries.flatMap Entry.lines ++ s.outcome.toList.map Outcome.banner ∧
    (s.outcome = outcome? policy x.entries ∧ (∀ e ∈ x.entries.dropLast, e.closes policy = false) ∧
      ∀ n, s.outcome = some (.completed n) → n = x.entries.countP Entry.isFailure) ∧
    (s.isActive = true → ∀ m, m.discards = false →
      let t := (x.move service m).session
      (∃ new, (x.move service m).entries = x.entries ++ new ∧ t.console.transcript =
        s.console.transcript ++ new.flatMap Entry.lines ++ t.outcome.toList.map Outcome.banner) ∧
      (t.isActive = false ↔ t.outcome.isSome = true)) ∧
    (s.isActive = true → s.reset.outcome = none ∧
      s.reset.console.transcript = s.console.transcript ∧
      ∀ w, (s.apply (.program w)).outcome = none ∧ (s.apply (.program w)).console.transcript = []) ∧
    (∀ p message, s.pending = some p → p.take.1 = some (.failed message) →
      (policy = .abort → ∀ now run after, s.goOn now run after = (.finished,
        (s.noted p.call message).finish (.failed s!"{p.call.text} failed: {message}"))) ∧
      (policy = .continue → ∃ m, s.machine = some m ∧
        s.settle = (none, (s.noted p.call message).resumed m (.error message)))) := by
  have hvalid := valid_after service settings prompter api moves
  intro x s policy
  have hcompleted (n : Nat) (hn : s.outcome = some (.completed n)) :
      n = x.entries.countP Entry.isFailure :=
    outcome?_completed (hvalid.accounted.outcome.symm.trans hn)
  refine ⟨fun o ho => ?_, hvalid.accounted.transcript,
    ⟨hvalid.accounted.outcome, hvalid.accounted.last, hcompleted⟩,
    fun ha m hm => hvalid.goes ha hm, fun ha => ?_, fun p message hp hr => ?_⟩
  · obtain ⟨hm, hp⟩ := hvalid.held.ended (by rw [ho]; rfl)
    have hi : s.isActive = false := by rw [Session.isActive, hm]; rfl
    refine ⟨hi, hp, hvalid.accounted.highlight hi, ?_⟩
    rw [hvalid.accounted.transcript, ho]
    exact List.getLast?_concat
  · obtain ⟨m, hm⟩ := Option.isSome_iff_exists.1 ha
    exact ⟨hvalid.held.outcome_none hm, rfl, fun _ => ⟨rfl, rfl⟩⟩
  · have hfailed := Session.settle_failed hvalid.held.matched hp hr
    rw [hvalid.held.policy] at hfailed
    refine ⟨fun ha now run after => ?_, hfailed.2⟩
    unfold Session.goOn
    rw [hfailed.1 ha]

end Chronicled

end ScopeBlocks
