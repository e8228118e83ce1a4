import ScopeBlocks.Proofs.Cli.Stages
import ScopeBlocks.Proofs.Session.Pace

/-! What a drive echoes is the transcript of its run, whichever of the snapshots it happens to see. -/
namespace ScopeBlocks.Cli.Drive

variable {σ : Type} {settings : Settings} {d : Drive σ} {shown : List Output}

theorem take_ended (service : Service σ) {o : Option Outcome} (hphase : d.phase = .ended o)
    (turn : Turn) :
    (d.take service turn).1.phase = .ended o ∧ echoed (d.take service turn).2 = [] := by
  cases turn with
  | attend => exact ⟨hphase, echoed_err _ _⟩
  | call | pass => exact ⟨hphase, rfl⟩
  | command | look =>
    simp only [Drive.take, hphase, reduceCtorEq, false_and, if_false]
    exact ⟨trivial, rfl⟩

/-- A drive with what has been written, after some turns in the order in which they come. -/
def after (service : Service σ) (start : Drive σ × List Output) (turns : List Turn) :
    Drive σ × List Output :=
  turns.foldl (fun r turn => ((r.1.take service turn).1, r.2 ++ (r.1.take service turn).2)) start

theorem faithful_new (settings : Settings) (w : Workspace) (stepping : Bool) (answers : List String)
    (api : σ) : Faithful settings (new settings w stepping answers api) (greeting stepping) where
  upright := SchedulerTimeline.upright_new settings (.ofAnswers answers) api
  published := ⟨rfl, rfl, rfl⟩
  stage := by
    refine .awaiting rfl ⟨rfl, rfl, .inl ⟨⟨rfl, rfl, rfl, rfl⟩, fun m hm => ?_⟩⟩
    have hm : m = .command (.edit .view) ∨ m = .command (.edit (.program w)) := by
      simpa [new, view] using hm
    rcases hm with rfl | rfl <;> rfl
  printed := Nat.le_refl 0
  lines := by cases stepping <;> rfl

theorem Faithful.after (h : Faithful settings d shown) (service : Service σ) (turns : List Turn) :
    Faithful settings (after service (d, shown) turns).1 (Drive.after service (d, shown) turns).2 := by
  induction turns generalizing d shown with
  | nil => exact h
  | cons turn turns ih => exact ih (h.take service turn)

theorem after_ended (service : Service σ) {o : Option Outcome} (hphase : d.phase = .ended o)
    (turns : List Turn) :
    (after service (d, shown) turns).1.phase = .ended o ∧
      echoed (after service (d, shown) turns).2 = echoed shown := by
  induction turns generalizing d shown with
  | nil => exact ⟨hphase, rfl⟩
  | cons turn turns ih =>
    obtain ⟨hover, hsilent⟩ := take_ended service hphase turn
    obtain ⟨hlater, hwritten⟩ := ih hover
    refine ⟨hlater, hwritten.trans ?_⟩
    rw [echoed_append, hsilent, List.append_nil]

theorem runWithin_turns (service : Service σ) (n : Nat) (d : Drive σ) (shown : List Output) :
    ∃ turns, runWithin service n d shown =
      ⟨(after service (d, shown.reverse) turns).2, (after service (d, shown.reverse) turns).1.code⟩ := by
  induction n generalizing d shown with
  | zero => exact ⟨[], rfl⟩
  | succ n ih =>
    rw [runWithin]
    cases d.next? with
    | none => exact ⟨[], rfl⟩
    | some turn =>
      obtain ⟨turns, hturns⟩ := ih (d.take service turn).1 ((d.take service turn).2.reverse ++ shown)
      rw [List.reverse_append, List.reverse_reverse] at hturns
      exact ⟨turn :: turns, hturns⟩

/-- However the turns of the scheduler and of the drive come, and whichever snapshots the drive sees, what
it has written to standard output are the first lines of the transcript, each once and in order, and all of
them once it is over, with an outcome or given up. With an outcome it is that of the run, and nothing more
is written. A run that is over is seen to be so at the next look. A drive that sees every snapshot is one
of them. -/
theorem echoes_transcript (service : Service σ) (api : σ) (settings : Settings) (w : Workspace)
    (stepping : Bool) :
    (∀ answers turns,
      let r := after service (new settings w stepping answers api, greeting stepping) turns
      let transcript := r.1.session.console.transcript.map (· ++ "\n")
      echoed r.2 <+: transcript ∧
      (∀ outcome, r.1.phase = .ended outcome → echoed r.2 = transcript ∧ ∀ more,
        let later := after service r more
        later.1.phase = .ended outcome ∧ echoed later.2 = echoed r.2) ∧
      (∀ o, r.1.phase = .ended (some o) → r.1.session.outcome = some o) ∧
      (r.1.phase = .following → ∀ o, r.1.session.outcome = some o →
        (r.1.take service .look).1.phase = .ended (some o))) ∧
    ∀ input, ∃ turns,
      let r := after service (new settings w stepping (lines input.toList) api, greeting stepping) turns
      run service api settings w stepping input = ⟨r.2, r.1.code⟩ := by
  refine ⟨fun answers turns => ?_, fun input => ?_⟩
  · intro r transcript
    have h : Faithful settings r.1 r.2 := (faithful_new settings w stepping answers api).after service turns
    refine ⟨?_, fun outcome hphase => ⟨(h.ended_echoed hphase).1, after_ended service hphase⟩,
      fun o hphase => (h.ended_echoed hphase).2 o rfl, fun hphase o ho => h.look_over hphase ho⟩
    rw [h.lines]
    exact (List.take_prefix _ _).map _
  · obtain ⟨turns, hturns⟩ := runWithin_turns service Timeline.patience
      (new settings w stepping (lines input.toList) api) (greeting stepping).reverse
    rw [List.reverse_reverse] at hturns
    exact ⟨turns, hturns⟩

open SchedulerTimeline (focusAndPrint)

/-- One step and a run to the end, of which the drive sees the pause at the first block and the end. -/
theorem focusAndPrint_echoed :
    let turns : List Turn := [.attend, .attend, .command, .attend, .look, .command, .attend, .call,
      .pass 200, .attend, .look, .attend]
    let r := after Prepared.service (new {} focusAndPrint true ["", "r"] offline, greeting true) turns
    r.1.phase = .ended (some (.completed 0)) ∧ echoed r.2 = ["done\n", "<< Program complete >>\n"] := by
  intro turns r
  have hends : r.1.phase = .ended (some (.completed 0)) ∧
      r.1.session.console.transcript = ["done", "<< Program complete >>"] := by decide +kernel
  obtain ⟨hphase, htranscript⟩ := hends
  obtain ⟨hdrives, -⟩ := echoes_transcript Prepared.service offline {} focusAndPrint true
  obtain ⟨-, hover, -⟩ := hdrives ["", "r"] turns
  refine ⟨hphase, (hover _ hphase).1.trans ?_⟩
  rw [htranscript]
  rfl

end ScopeBlocks.Cli.Drive
