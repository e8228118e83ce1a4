import ScopeBlocks.Cli.Drive
import ScopeBlocks.Proofs.Session.Growth
import ScopeBlocks.Proofs.Session.Precedence

/-! How far a drive has come. Its scheduler attends to edits until the first command, and to one command at
a time, which the drive sends when the one before has come to its end. So between two looks the transcript
only grows, and what has been echoed of it stays at its head: every turn keeps that. -/
namespace ScopeBlocks

def Message.edits : Message → Bool
  | .command (.edit _) => true
  | _ => false

/-- The snapshot that is shown agrees with the scheduler in what a drive reads of it. -/
structure SchedulerTimeline.Shown {σ : Type} (t : SchedulerTimeline σ) : Prop where
  transcript : t.published.transcript = t.scheduler.session.console.transcript
  outcome : t.published.outcome = t.scheduler.session.outcome
  mode : t.published.mode = t.scheduler.mode

theorem Scheduler.Sound.not_paused {s : Scheduler} (h : s.Sound) (hi : s.session.isActive = false) :
    s.mode ≠ .paused := by
  intro hmode
  have hrow := h.row
  rw [hmode] at hrow
  rw [hrow.2.2.1] at hi
  cases hi

namespace Cli

def echoed (outputs : List Output) : List String :=
  (outputs.filter (·.stream = .out)).map Output.text

@[simp] theorem echoed_append (outputs more : List Output) :
    echoed (outputs ++ more) = echoed outputs ++ echoed more := by
  simp [echoed]

@[simp] theorem echoed_err {α : Type} (xs : List α) (text : α → String) :
    echoed (xs.map fun x => err (text x)) = [] := by
  simp [echoed, err]

@[simp] theorem echoed_out {α : Type} (xs : List α) (text : α → String) :
    echoed (xs.map fun x => out (text x)) = xs.map text := by
  induction xs with
  | nil => rfl
  | cons x xs ih => simpa [echoed, out] using ih

/-- What matters of a drive and its scheduler to what is echoed. -/
structure View where
  closed : Bool
  waiting : List Message
  mode : Mode
  next : Option (Continuation × Nat)
  active : Bool
  transcript : List String
  outcome : Option Outcome
  fresh : Bool
  printed : Nat
  phase : Phase

namespace View

/-- No run has begun yet. -/
structure Blank (v : View) : Prop where
  next : v.next = none
  inactive : v.active = false
  transcript : v.transcript = []
  outcome : v.outcome = none

/-- After some edits, if there are any, a scheduler takes the next command. All there is has been echoed. -/
structure Poised (v : View) (edits : List Message) : Prop where
  opened : v.closed = false
  printed : v.printed = v.transcript.length
  state : v.Blank ∧ (∀ m ∈ edits, m.edits = true) ∨ v.mode = .paused ∧ edits = []

theorem Poised.head {v : View} {m : Message} {edits : List Message} (h : v.Poised (m :: edits)) :
    v.Blank ∧ m.edits = true := by
  rcases h.state with ⟨hblank, hedits⟩ | ⟨-, hnone⟩
  · exact ⟨hblank, hedits m List.mem_cons_self⟩
  · cases hnone

theorem Poised.left {v w : View} {edits : List Message} (h : v.Poised edits)
    (hw : w = { v with
      waiting := w.waiting, fresh := w.fresh, printed := v.transcript.length, phase := w.phase }) :
    w.Poised edits := by
  rw [hw]
  refine ⟨h.opened, rfl, h.state.imp_left fun ⟨hblank, hedits⟩ => ⟨?_, hedits⟩⟩
  exact ⟨hblank.next, hblank.inactive, hblank.transcript, hblank.outcome⟩

/-- How far a drive has come. While it waits for a command nothing is shown that it could take for an answer
to the next one; once it is over nothing is left that changes the transcript. -/
inductive Stage (v : View) : Prop
  | awaiting (phase : v.phase = .command) (poised : v.Poised v.waiting)
  | sent {edits : List Message} {c : Command} (phase : v.phase = .following)
      (waiting : v.waiting = edits ++ [.command c]) (advances : c = .step ∨ c = .run)
      (poised : v.Poised edits) (unseen : v.mode = .paused → v.fresh = false)
  | underway (phase : v.phase = .following) (opened : v.closed = false) (waiting : v.waiting = [])
      (live : v.active = true ∨ v.outcome.isSome = true)
      (fresh : v.outcome.isSome = true → v.fresh = true)
  | ended {outcome : Option Outcome} (phase : v.phase = .ended outcome)
      (printed : v.printed = v.transcript.length) (outcome : ∀ o, outcome = some o → v.outcome = some o)
      (waiting : ∀ m ∈ v.waiting, m = .shutdown ∨ m.edits = true ∧ v.Blank)
      (next : ∀ c due, v.next = some (c, due) → c = .cooldown)

end View

namespace Drive

variable {σ : Type}

def view (d : Drive σ) : View where
  closed := d.queue.timeline.closed
  waiting := d.queue.waiting
  mode := d.queue.timeline.scheduler.mode
  next := d.queue.timeline.scheduler.next
  active := d.session.isActive
  transcript := d.session.console.transcript
  outcome := d.session.outcome
  fresh := d.fresh
  printed := d.printed
  phase := d.phase

variable {service : Service σ} {settings : Settings} {d d' : Drive σ} {shown : List Output}

/-- The lines on standard output are the first lines of the transcript, as many as are counted. -/
structure Faithful (settings : Settings) (d : Drive σ) (shown : List Output) : Prop where
  upright : d.queue.timeline.Upright settings
  published : d.queue.timeline.Shown
  stage : d.view.Stage
  printed : d.printed ≤ d.session.console.transcript.length
  lines : echoed shown = (d.session.console.transcript.take d.printed).map (· ++ "\n")

/-! What a drive can be after its scheduler has attended to something. -/

/-- The drive whose scheduler has been changed to show itself, with other messages waiting. -/
def showing (d : Drive σ) (now : Nat) (s : Scheduler) (waiting : List Message) : Drive σ :=
  { d with queue := ⟨SchedulerTimeline.publish { d.queue.timeline with now } s, waiting⟩, fresh := true }

def shut (d : Drive σ) (waiting : List Message) : Drive σ :=
  let s := d.queue.timeline.scheduler
  { d with queue := ⟨{ d.queue.timeline with
      closed := true
      scheduler := { s with session := s.session.reset, next := none } }, waiting⟩ }

inductive Attended (d : Drive σ) : Drive σ → Prop
  | nothing (h : d.queue.matter? = none) : Attended d d
  | command {c : Command} {rest : List Message} (hw : d.queue.waiting = .command c :: rest) :
      Attended d (d.showing d.queue.timeline.now
        (d.queue.timeline.scheduler.handle d.queue.timeline.now c) rest)
  | shutdown {rest : List Message} (hw : d.queue.waiting = .shutdown :: rest) :
      Attended d (d.shut rest)
  | continuation {c : Continuation} {due : Nat} (hw : d.queue.waiting = [])
      (hn : d.queue.timeline.scheduler.next = some (c, due)) :
      Attended d (d.showing (max d.queue.timeline.now due)
        (d.queue.timeline.scheduler.resume (max d.queue.timeline.now due) c) [])

theorem attend_of_none (h : d.queue.matter? = none) : (d.attend service).1 = d := by
  simp only [attend, SchedulerQueue.attend, SchedulerQueue.shows, h, Bool.or_false]

theorem attend_attended (service : Service σ) (d : Drive σ) : d.Attended (d.attend service).1 := by
  have nothing (h : d.queue.matter? = none) : d.Attended (d.attend service).1 := by
    rw [attend_of_none h]
    exact .nothing h
  cases hclosed : d.queue.timeline.closed with
  | true => exact nothing (by simp only [SchedulerQueue.matter?, hclosed, if_true])
  | false =>
    cases hw : d.queue.waiting with
    | cons m rest =>
      have hm := SchedulerQueue.matter?_of_waiting hw hclosed
      cases m with
      | command c =>
        have hafter : (d.attend service).1 = d.showing d.queue.timeline.now
            (d.queue.timeline.scheduler.handle d.queue.timeline.now c) rest := by
          simp only [attend, SchedulerQueue.attend, SchedulerQueue.shows, hm, hw, SchedulerQueue.handle,
            SchedulerTimeline.send, hclosed, Bool.false_eq_true, if_false, Option.getD_some,
            SchedulerTimeline.publish, Bool.or_true, List.tail_cons, showing]
        rw [hafter]
        exact .command hw
      | shutdown =>
        have hafter : (d.attend service).1 = d.shut rest := by
          simp only [attend, SchedulerQueue.attend, SchedulerQueue.shows, hm, hw, SchedulerQueue.handle,
            SchedulerTimeline.shutdown, hclosed, Bool.false_eq_true, if_false, Option.getD_some,
            Bool.or_false, List.tail_cons, shut]
        rw [hafter]
        exact .shutdown hw
    | nil =>
      cases hn : d.queue.timeline.scheduler.next with
      | none =>
        exact nothing (by simp only [SchedulerQueue.matter?, hclosed, hw, hn, Bool.false_eq_true, if_false])
      | some next =>
        obtain ⟨c, due⟩ := next
        by_cases hdue : due ≤ d.queue.timeline.now
        · have hm : d.queue.matter? = some (.continuation c due) := by
            simp only [SchedulerQueue.matter?, hclosed, hw, hn, hdue, Bool.false_eq_true, if_false, if_true]
          have hafter : (d.attend service).1 = d.showing (max d.queue.timeline.now due)
              (d.queue.timeline.scheduler.resume (max d.queue.timeline.now due) c) [] := by
            simp only [attend, SchedulerQueue.attend, SchedulerQueue.shows, hm, SchedulerTimeline.happen,
              Bool.or_true, hw, showing]
          rw [hafter]
          exact .continuation hw hn
        · exact nothing (by
            simp only [SchedulerQueue.matter?, hclosed, hw, hn, hdue, Bool.false_eq_true, if_false])

theorem edit_of_edits {c : Command} (h : (Message.command c).edits = true) :
    ∃ change, c = .edit change := by
  cases c with
  | edit change => exact ⟨change, rfl⟩
  | step | run | reset => cases h

theorem blank_edited (hblank : d.view.Blank) (now : Nat) (change : Change) (waiting : List Message) :
    (d.showing now (d.queue.timeline.scheduler.handle now (.edit change)) waiting).view.Blank := by
  cases change with
  | view => exact ⟨hblank.next, hblank.inactive, hblank.transcript, hblank.outcome⟩
  | program w =>
    have hnext : d.queue.timeline.scheduler.next = none := hblank.next
    have hcancel : d.queue.timeline.scheduler.cancel.next = none := by
      simp only [Scheduler.cancel, hnext]
    exact ⟨hcancel, rfl, rfl, rfl⟩

theorem poised_edited {c : Command} {edits : List Message} (h : d.view.Poised (.command c :: edits))
    (now : Nat) (waiting : List Message) :
    let d' := d.showing now (d.queue.timeline.scheduler.handle now c) waiting
    d'.view.Poised edits ∧ d'.view.Blank ∧
      d.session.console.transcript <+: d'.session.console.transcript := by
  rcases h.state with ⟨hblank, hedits⟩ | ⟨-, hnone⟩
  · obtain ⟨hc, hrest⟩ := List.forall_mem_cons.1 hedits
    obtain ⟨change, rfl⟩ := edit_of_edits hc
    have hafter := blank_edited hblank now change waiting
    have hempty : d.session.console.transcript = [] := hblank.transcript
    refine ⟨⟨h.opened, ?_, .inl ⟨hafter, hrest⟩⟩, hafter, hempty ▸ List.nil_prefix⟩
    rw [hafter.transcript, ← hblank.transcript]
    exact h.printed
  · cases hnone

/-! What looking and sending leave as it was. -/

theorem post_timeline (d : Drive σ) (m : Message) : (d.post m).queue.timeline = d.queue.timeline := by
  unfold post SchedulerQueue.post
  split <;> rfl

theorem judge_timeline (d : Drive σ) (s : Snapshot) :
    (d.judge s).1.queue.timeline = d.queue.timeline := by
  unfold judge
  split
  · exact d.post_timeline _
  · split <;> rfl

theorem judge_printed (d : Drive σ) (s : Snapshot) : (d.judge s).1.printed = d.printed := by
  unfold judge
  split
  · rfl
  · split <;> rfl

theorem echoed_judge (d : Drive σ) (s : Snapshot) : echoed (d.judge s).2 = [] := by
  unfold judge
  split
  · rfl
  · split
    · exact echoed_err _ _
    · rfl

namespace Faithful

variable (h : Faithful settings d shown)

include h

theorem held : d.session.Held settings := by
  obtain ⟨w, hw⟩ := h.upright.loaded
  exact hw.held

theorem sound (hopen : d.view.closed = false) : d.queue.timeline.scheduler.Sound :=
  (h.upright.opened hopen).scheduler

theorem ready {edits : List Message} (hp : d.view.Poised edits) :
    d.queue.timeline.scheduler.controls = true ∧ d.view.next = none ∧
      (d.view.active = true ∨ d.view.transcript = []) ∧ d.view.outcome = none := by
  have hrow := (h.sound hp.opened).row
  rcases hp.state with ⟨hblank, -⟩ | ⟨hmode, -⟩
  · refine ⟨?_, hblank.next, .inr hblank.transcript, hblank.outcome⟩
    have hnext : d.queue.timeline.scheduler.next = none := hblank.next
    have hidle : d.queue.timeline.scheduler.session.isActive = false := hblank.inactive
    cases hm : d.queue.timeline.scheduler.mode with
    | idle | paused =>
      rw [hm] at hrow
      exact hrow.1
    | stepping | running | cooldown =>
      rw [hm] at hrow
      obtain ⟨-, ⟨due, hdue⟩, -⟩ := hrow
      rw [hnext] at hdue
      cases hdue
  · have hm : d.queue.timeline.scheduler.mode = .paused := hmode
    rw [hm] at hrow
    obtain ⟨hc, hn, hi, -⟩ := hrow
    obtain ⟨m, hmachine⟩ := Option.isSome_iff_exists.1 hi
    exact ⟨hc, hn, .inl hi, h.held.outcome_none hmachine⟩

theorem viewed (hupright : d'.queue.timeline.Upright settings) (hshown : d'.queue.timeline.Shown)
    (hview : d'.view = d.view) : Faithful settings d' shown := by
  have htranscript : d'.session.console.transcript = d.session.console.transcript :=
    congrArg View.transcript hview
  have hprinted : d'.printed = d.printed := congrArg View.printed hview
  refine ⟨hupright, hshown, hview ▸ h.stage, ?_, ?_⟩
  · rw [hprinted, htranscript]
    exact h.printed
  · rw [hprinted, htranscript]
    exact h.lines

theorem command_stage {c : Command} {rest : List Message} (hw : d.view.waiting = .command c :: rest) :
    let now := d.queue.timeline.now
    let d' := d.showing now (d.queue.timeline.scheduler.handle now c) rest
    d'.view.Stage ∧ d.session.console.transcript <+: d'.session.console.transcript := by
  cases h.stage with
  | awaiting phase poised =>
    obtain ⟨hpoised, -, hkept⟩ := poised_edited (hw ▸ poised) d.queue.timeline.now rest
    exact ⟨.awaiting phase hpoised, hkept⟩
  | @sent edits c' phase waiting advances poised unseen =>
    rw [waiting] at hw
    cases edits with
    | nil =>
      cases hw
      obtain ⟨hc, -, hbegins, -⟩ := h.ready poised
      have hcarries := Scheduler.handle_carries h.held hc hbegins d.queue.timeline.now advances
      exact ⟨.underway phase poised.opened rfl hcarries.live fun _ => rfl, hcarries.lines⟩
    | cons m edits =>
      cases hw
      obtain ⟨hpoised, hblank, hkept⟩ :=
        poised_edited poised d.queue.timeline.now (edits ++ [.command c'])
      have hsound := Scheduler.handle_sound (h.sound poised.opened) d.queue.timeline.now c
      exact ⟨.sent phase rfl advances hpoised fun hmode =>
        absurd hmode (hsound.not_paused hblank.inactive), hkept⟩
  | underway phase opened waiting live fresh =>
    rw [waiting] at hw
    cases hw
  | ended phase printed houtcome waiting next =>
    obtain ⟨hc, hrest⟩ := List.forall_mem_cons.1 (hw ▸ waiting)
    obtain ⟨hc, hblank⟩ := hc.resolve_left (by rintro ⟨⟩)
    obtain ⟨change, rfl⟩ := edit_of_edits hc
    have hafter := blank_edited hblank d.queue.timeline.now change rest
    refine ⟨.ended phase ?_ (fun o ho => ?_) (fun m hm => (hrest m hm).imp_right fun hm => ⟨hm.1, hafter⟩)
      fun c due hn => ?_, ?_⟩
    · rw [hafter.transcript, ← hblank.transcript]
      exact printed
    · rw [hafter.outcome, ← hblank.outcome]
      exact houtcome o ho
    · rw [hafter.next] at hn
      cases hn
    · have hempty : d.session.console.transcript = [] := hblank.transcript
      exact hempty ▸ List.nil_prefix

theorem shut_stage {rest : List Message} (hw : d.view.waiting = .shutdown :: rest) :
    (d.shut rest).view.Stage := by
  cases h.stage with
  | awaiting phase poised => cases (hw ▸ poised).head.2
  | @sent edits c phase waiting advances poised unseen =>
    rw [waiting] at hw
    cases edits with
    | nil => cases hw
    | cons m edits =>
      cases hw
      cases poised.head.2
  | underway phase opened waiting live fresh =>
    rw [waiting] at hw
    cases hw
  | ended phase printed houtcome waiting next =>
    have hrest := (List.forall_mem_cons.1 (hw ▸ waiting)).2
    refine .ended phase printed houtcome (fun m hm => (hrest m hm).imp_right fun hm => ⟨hm.1, ?_⟩)
      (by rintro _ _ ⟨⟩)
    exact ⟨rfl, rfl, hm.2.transcript, hm.2.outcome⟩

theorem continuation_stage {c : Continuation} {due : Nat} (hw : d.view.waiting = [])
    (hn : d.view.next = some (c, due)) (now : Nat) :
    let d' := d.showing now (d.queue.timeline.scheduler.resume now c) []
    d'.view.Stage ∧ d.session.console.transcript <+: d'.session.console.transcript := by
  cases h.stage with
  | awaiting phase poised =>
    rw [(h.ready poised).2.1] at hn
    cases hn
  | sent phase waiting =>
    rw [hw] at waiting
    simp at waiting
  | underway phase opened waiting live fresh =>
    have hcarries := Scheduler.resume_carries h.held ⟨List.prefix_rfl, live⟩ now c
    exact ⟨.underway phase opened rfl hcarries.live fun _ => rfl, hcarries.lines⟩
  | ended phase printed houtcome waiting next =>
    obtain rfl := next c due hn
    exact ⟨.ended phase printed houtcome (by rintro _ ⟨⟩) (by rintro _ _ ⟨⟩), List.prefix_rfl⟩

/-- What the scheduler attends to takes the drive from one stage to the same or the next one, and takes
nothing from the transcript. -/
theorem attend_stage (service : Service σ) : (d.attend service).1.view.Stage ∧
    d.session.console.transcript <+: (d.attend service).1.session.console.transcript := by
  have hattended := attend_attended service d
  generalize (d.attend service).1 = d' at hattended
  cases hattended with
  | nothing => exact ⟨h.stage, List.prefix_rfl⟩
  | command hw => exact h.command_stage hw
  | shutdown hw => exact ⟨h.shut_stage hw, List.prefix_rfl⟩
  | continuation hw hn => exact h.continuation_stage hw hn _

theorem attend_shown (service : Service σ) : (d.attend service).1.queue.timeline.Shown := by
  have hattended := attend_attended service d
  generalize (d.attend service).1 = d' at hattended
  cases hattended with
  | nothing => exact h.published
  | command | continuation => exact ⟨rfl, rfl, rfl⟩
  | shutdown => exact ⟨h.published.transcript, h.published.outcome, h.published.mode⟩

theorem attend (service : Service σ) :
    Faithful settings (d.attend service).1 (shown ++ (d.attend service).2) := by
  obtain ⟨hstage, hgrows⟩ := h.attend_stage service
  refine ⟨SchedulerQueue.upright_move service h.upright .attend, h.attend_shown service, hstage,
    h.printed.trans hgrows.length_le, ?_⟩
  have htake : (d.attend service).1.session.console.transcript.take d.printed =
      d.session.console.transcript.take d.printed := by
    obtain ⟨new, hnew⟩ := hgrows
    rw [← hnew, List.take_append_of_le_length h.printed]
  have hquestions : echoed (d.attend service).2 = [] := echoed_err _ _
  rw [echoed_append, hquestions, List.append_nil, h.lines, ← htake]
  rfl

/-! A look. -/

theorem seen {outputs : List Output} (htimeline : d'.queue.timeline = d.queue.timeline)
    (hprinted : d'.printed = d.session.console.transcript.length)
    (houtputs : echoed outputs = (d.session.console.transcript.drop d.printed).map (· ++ "\n"))
    (hstage : d'.view.Stage) : Faithful settings d' (shown ++ outputs) := by
  have hsession : d'.session = d.session := congrArg (·.scheduler.session) htimeline
  refine ⟨htimeline ▸ h.upright, htimeline ▸ h.published, hstage, ?_, ?_⟩
  · rw [hprinted, hsession]
  · rw [echoed_append, h.lines, houtputs, hprinted, hsession, ← List.map_append,
      List.take_append_drop, List.take_length]

omit h in
theorem post_of_open (hopen : d.view.closed = false) (m : Message) :
    d.post m = { d with queue.waiting := d.queue.waiting ++ [m] } := by
  have hopen : d.queue.timeline.closed = false := hopen
  simp only [post, SchedulerQueue.post, hopen, Bool.false_eq_true, if_false, Option.getD_some]

omit h in
/-- A drive is over where all has been echoed and the scheduler has nothing more to change. -/
theorem finish_stage {o : Option Outcome} (hopen : d.view.closed = false)
    (hprinted : d.view.printed = d.view.transcript.length)
    (houtcome : ∀ x, o = some x → d.view.outcome = some x)
    (hwaiting : ∀ m ∈ d.view.waiting, m.edits = true ∧ d.view.Blank)
    (hnext : ∀ c due, d.view.next = some (c, due) → c = .cooldown) : (d.finish o).view.Stage := by
  rw [finish, post_of_open hopen]
  refine .ended rfl hprinted houtcome (fun m hm => ?_) hnext
  rcases List.mem_append.1 hm with hm | hm
  · exact .inr ⟨(hwaiting m hm).1, ⟨(hwaiting m hm).2.next, (hwaiting m hm).2.inactive,
      (hwaiting m hm).2.transcript, (hwaiting m hm).2.outcome⟩⟩
  · exact .inl (List.mem_singleton.1 hm)

theorem next_of_outcome (hopen : d.view.closed = false) (ho : d.view.outcome.isSome = true)
    {c : Continuation} {due : Nat} (hn : d.view.next = some (c, due)) : c = .cooldown := by
  have hi : d.queue.timeline.scheduler.session.isActive = false := by
    have hm : d.queue.timeline.scheduler.session.machine = none := (h.held.ended ho).1
    simp [Session.isActive, hm]
  have hrow := (h.sound hopen).row
  have hmode := (h.sound hopen).mode_of_next hn
  rw [hmode] at hrow
  cases c with
  | cooldown => rfl
  | step | run =>
    rw [hrow.2.2] at hi
    cases hi

theorem look (hphase : d.phase = .following) (hfresh : d.fresh = true) :
    Faithful settings d.look.1 (shown ++ d.look.2) := by
  let seen : Drive σ :=
    { d with fresh := false, printed := d.session.console.transcript.length }
  have hlook : d.look = ((seen.judge d.queue.timeline.published).1,
      ((d.session.console.transcript.drop d.printed).map fun line => out (line ++ "\n")) ++
        (seen.judge d.queue.timeline.published).2) := by
    have htranscript : d.queue.timeline.published.transcript = d.session.console.transcript :=
      h.published.transcript
    simp only [Drive.look, echo, htranscript, Nat.not_lt.2 h.printed, if_false, seen]
  rw [hlook]
  refine h.seen (judge_timeline seen _) (judge_printed seen _) ?_ ?_
  · rw [echoed_append, echoed_out, echoed_judge, List.append_nil]
  have houtcome : d.queue.timeline.published.outcome = d.view.outcome := h.published.outcome
  have hmode : d.queue.timeline.published.mode = d.view.mode := h.published.mode
  generalize d.queue.timeline.published = s at houtcome hmode
  dsimp only
  cases h.stage with
  | awaiting phase => cases hphase.symm.trans phase
  | ended phase => cases hphase.symm.trans phase
  | sent phase waiting advances poised unseen =>
    have hrunning : s.mode ≠ .paused := by
      intro hpaused
      cases hfresh.symm.trans (unseen (hmode.symm.trans hpaused))
    have hnone : s.outcome = none := houtcome.trans (h.ready poised).2.2.2
    have hjudge : seen.judge s = (seen, []) := by simp [judge, hnone, hrunning]
    rw [hjudge]
    exact .sent phase waiting advances (poised.left rfl) fun _ => rfl
  | underway phase opened waiting live fresh =>
    unfold judge
    split
    next hover =>
      have hover : d.view.outcome.isSome = true := houtcome ▸ hover
      refine finish_stage (d := seen) opened rfl (fun o ho => houtcome.symm.trans ho) ?_
        fun c due hn => h.next_of_outcome opened hover hn
      rw [show seen.view.waiting = [] from waiting]
      rintro _ ⟨⟩
    next hgoing =>
      split
      next hpaused =>
        simp only [Bool.and_eq_true, decide_eq_true_eq] at hpaused
        exact .awaiting rfl ⟨opened, rfl, .inr ⟨hmode.symm.trans hpaused.2, waiting⟩⟩
      next =>
        exact .underway phase opened waiting live fun ho => absurd (houtcome ▸ ho) hgoing

/-! A command. -/

theorem setPrompter (p : Prompter) : Faithful settings (d.setPrompter p) shown := by
  obtain ⟨⟨w, hw⟩, hopened, hclosed⟩ := h.upright
  refine h.viewed ⟨⟨w, ?_⟩, fun hopen => ?_, fun hshut => ?_⟩
    ⟨h.published.transcript, h.published.outcome, h.published.mode⟩ rfl
  · exact ⟨⟨hw.held.matched, hw.held.bridge, hw.held.policy, hw.held.ended⟩, hw.load⟩
  · obtain ⟨⟨hsession, hrow, hpaused⟩, hpublished⟩ := hopened hopen
    exact ⟨⟨⟨hsession.matched, hsession.tidy, hsession.compiled, hsession.current, hsession.inactive⟩,
      hrow, hpaused⟩, hpublished⟩
  · obtain ⟨hvacant, hnext⟩ := hclosed hshut
    exact ⟨⟨hvacant.machine, hvacant.pending, hvacant.highlight, hvacant.next⟩, hnext⟩

theorem unwritten (htimeline : d'.queue.timeline = d.queue.timeline) (hprinted : d'.printed = d.printed)
    (hstage : d'.view.Stage) : Faithful settings d' shown := by
  have hsession : d'.session = d.session := congrArg (·.scheduler.session) htimeline
  refine ⟨htimeline ▸ h.upright, htimeline ▸ h.published, hstage, ?_, ?_⟩
  · rw [hprinted, hsession]
    exact h.printed
  · rw [hprinted, hsession]
    exact h.lines

theorem send (hp : d.view.Poised d.view.waiting) {c : Command} (hc : c = .step ∨ c = .run) :
    Faithful settings (d.send c) shown := by
  refine h.unwritten (d.post_timeline _) rfl ?_
  rw [Drive.send, post_of_open hp.opened]
  exact .sent rfl rfl hc (hp.left (by simp only [← hp.printed]; rfl)) fun _ => rfl

theorem quit (hp : d.view.Poised d.view.waiting) : Faithful settings (d.finish none) shown := by
  refine h.unwritten (d.post_timeline _) rfl (finish_stage hp.opened hp.printed (by rintro _ ⟨⟩) ?_ ?_)
  · intro m hm
    rcases hp.state with ⟨hblank, hedits⟩ | ⟨-, hnone⟩
    · exact ⟨hedits m hm, hblank⟩
    · rw [hnone] at hm
      cases hm
  · intro c due hn
    rw [(h.ready hp).2.1] at hn
    cases hn

theorem command (hphase : d.phase = .command) : Faithful settings d.command shown := by
  have poised {d : Drive σ} (h : Faithful settings d shown) (hphase : d.phase = .command) :
      d.view.Poised d.view.waiting := by
    cases h.stage with
    | awaiting phase poised => exact poised
    | sent phase | underway phase | ended phase => cases hphase.symm.trans phase
  unfold Drive.command
  split
  · split
    · exact h.quit (poised h hphase)
    next line rest _ =>
      have hread := h.setPrompter { d.prompter with answers := rest }
      have hp := poised hread hphase
      dsimp only
      split
      · exact hread.quit hp
      · exact hread.send hp (.inr rfl)
      · exact hread.send hp (.inl rfl)
  · exact h.send (poised h hphase) (.inr rfl)

theorem take (service : Service σ) (turn : Turn) :
    Faithful settings (d.take service turn).1 (shown ++ (d.take service turn).2) := by
  cases turn with
  | attend => exact h.attend service
  | call =>
    rw [show (d.take service .call).2 = [] from rfl, List.append_nil]
    refine h.viewed (SchedulerQueue.upright_move service h.upright .call) ?_ ?_
    · simp only [Drive.take, SchedulerTimeline.happen]
      split <;> exact ⟨h.published.transcript, h.published.outcome, h.published.mode⟩
    · simp only [Drive.take, SchedulerTimeline.happen]
      split <;> rfl
  | pass duration =>
    rw [show (d.take service (.pass duration)).2 = [] from rfl, List.append_nil]
    exact h.viewed (SchedulerQueue.upright_move service h.upright (.pass duration))
      ⟨h.published.transcript, h.published.outcome, h.published.mode⟩ rfl
  | command =>
    simp only [Drive.take]
    split
    next hphase =>
      rw [List.append_nil]
      exact h.command hphase
    next =>
      rw [List.append_nil]
      exact h
  | look =>
    simp only [Drive.take]
    split
    next hlook => exact h.look hlook.1 hlook.2
    next =>
      rw [List.append_nil]
      exact h

/-- All has been written once a drive is over. -/
theorem ended_echoed {outcome : Option Outcome} (hphase : d.phase = .ended outcome) :
    echoed shown = d.session.console.transcript.map (· ++ "\n") ∧
      ∀ o, outcome = some o → d.session.outcome = some o := by
  cases h.stage with
  | awaiting phase | sent phase | underway phase => cases hphase.symm.trans phase
  | ended phase printed houtcome =>
    cases hphase.symm.trans phase
    have hprinted : d.printed = d.session.console.transcript.length := printed
    refine ⟨?_, houtcome⟩
    rw [h.lines, hprinted, List.take_length]

/-- A run that is over is seen to be so at the next look. -/
theorem look_over (hphase : d.phase = .following) {o : Outcome} (ho : d.session.outcome = some o) :
    (d.take service .look).1.phase = .ended (some o) := by
  have hover : d.view.outcome = some o := ho
  have hfresh : d.fresh = true := by
    cases h.stage with
    | awaiting phase => cases hphase.symm.trans phase
    | ended phase => cases hphase.symm.trans phase
    | sent phase waiting advances poised =>
      rw [(h.ready poised).2.2.2] at hover
      cases hover
    | underway phase opened waiting live fresh => exact fresh (by rw [hover]; rfl)
  have hpublished : d.queue.timeline.published.outcome = some o := h.published.outcome.trans ho
  simp only [Drive.take, hphase, hfresh, and_self, if_true, Drive.look, judge, hpublished,
    Option.isSome_some]
  rfl

end Faithful

end Drive

end Cli

end ScopeBlocks
