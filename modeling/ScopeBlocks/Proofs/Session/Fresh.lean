import ScopeBlocks.Proofs.Session.Loaded
import ScopeBlocks.Proofs.Session.OneAtATime
import ScopeBlocks.Proofs.Session.Pace

/-! Runs begin afresh. A session in which no run is active cannot be told from a new one with the same
program, whatever has been done with it: nothing of its earlier runs is left but the questions that were
asked in them, and those no run looks at. -/
namespace ScopeBlocks

open Script (Machine Step Sees)
open SchedulerTimeline (focusAndPrint slowFocus)

def Prompter.since (before : List Question) (p : Prompter) : Prompter :=
  { p with asked := before ++ p.asked }

def Console.since (before : List Question) (c : Console) : Console :=
  { c with prompter := c.prompter.since before }

/-- The questions asked before do not matter to a script. -/
theorem Console.sees_since (before : List Question) :
    Sees Console.host Console.host (Console.since before) where
  print _ _ := rfl
  prompt _ _ _ := by simp only [host, since, Prompter.ask, Prompter.since, List.append_assoc]
  mark _ _ := rfl

/-- What whoever operates on a session is told. -/
inductive Answer where
  | nothing
  | applied (error : Option CompileError)
  | started (active : Bool)
  | progressed (progress : Progress)
  deriving DecidableEq

namespace Session

def answer (s : Session) : Operation → Answer
  | .apply .view => .applied none
  | .apply (.program w) =>
    match w.compile with
    | .ok _ => .applied none
    | .error e => .applied (some e)
  | .start => .started s.start.1
  | .tick now => .progressed (s.tick now).1
  | .runSlice now => .progressed (s.runSlice now).1
  | .reset | .clearPause => .nothing

def since (before : List Question) (s : Session) : Session :=
  { s with console := s.console.since before }

/-- A new session with the program that was loaded last, if one was. -/
def fresh (settings : Settings) (prompter : Prompter) : Option Workspace → Session
  | none => new settings prompter
  | some w => (new settings prompter).apply (.program w)

section Since

variable (before : List Question) (s : Session) (now : Nat)

theorem deliver_since (v : Script.Value) : (s.since before).deliver v =
    ((s.deliver v).1, (s.deliver v).2.since before) := by
  simp only [deliver, show (s.since before).machine = s.machine from rfl]
  cases s.machine with
  | none => rfl
  | some m =>
    dsimp only
    cases m.resolve? v <;> rfl

theorem deliverFailure_since (call : Script.AsyncCall) (message : String) :
    (s.since before).deliverFailure call message =
      ((s.deliverFailure call message).1, (s.deliverFailure call message).2.since before) := by
  simp only [deliverFailure, show (s.since before).policy = s.policy from rfl]
  cases s.policy with
  | abort => rfl
  | «continue» =>
    exact deliver_since before { s with
      policy := .continue
      failedActions := s.failedActions + 1
      console := s.console.log s!"Action {call.text} failed: {message}" } (.error message)

theorem settle_since : (s.since before).settle = (s.settle.1, s.settle.2.since before) := by
  simp only [settle, show (s.since before).pending = s.pending from rfl]
  cases s.pending with
  | none => rfl
  | some p =>
    dsimp only
    rcases p.take with ⟨_ | (v | message), taken⟩
    · rfl
    · exact deliver_since before { s with pending := none } v
    · exact deliverFailure_since before { s with pending := none } p.call message

theorem afterStep_since (step : Except Script.Error Step) : (s.since before).afterStep now step =
    ((s.afterStep now step).1, (s.afterStep now step).2.since before) := by
  cases step with
  | error => rfl
  | ok step => cases step <;> rfl

/-- A drive of a machine to which the questions asked before do not matter. -/
structure Forgets (run : Machine → Console → Except Script.Error Step × Machine × Console)
    (after : Session → Session) : Prop where
  run : ∀ m c, run m (c.since before) = ((run m c).1, (run m c).2.1, (run m c).2.2.since before)
  after : ∀ s, after (s.since before) = (after s).since before

theorem forgets_tick : Forgets before (·.step Console.host ·) id where
  run m c := (Console.sees_since before).step m c
  after _ := rfl

theorem forgets_runSlice (budget : Nat) :
    Forgets before (·.runBounded Console.host budget ·) clearPause where
  run m c := (Console.sees_since before).runBounded budget m c
  after _ := rfl

variable {before} {run : Machine → Console → Except Script.Error Step × Machine × Console}
  {after : Session → Session}

theorem Forgets.goOn (h : Forgets before run after) : (s.since before).goOn now run after =
    ((s.goOn now run after).1, (s.goOn now run after).2.since before) := by
  simp only [Session.goOn, settle_since]
  rcases s.settle with ⟨_ | progress, t⟩
  · simp only [show (t.since before).machine = t.machine from rfl]
    cases t.machine with
    | none => rfl
    | some m =>
      simp only [show (t.since before).console = t.console.since before from rfl, h.run]
      rw [← afterStep_since, ← h.after]
      rfl
  · rfl

theorem Forgets.called? (h : Forgets before run after) :
    (s.since before).called? run = s.called? run := by
  simp only [Session.called?, settle_since]
  rcases s.settle with ⟨_ | progress, t⟩
  · simp only [show (t.since before).machine = t.machine from rfl,
      show (t.since before).console = t.console.since before from rfl, h.run]
  · rfl

variable (before)

theorem start_since : (s.since before).start = (s.start.1, s.start.2.since before) := by
  simp only [start, show (s.since before).isActive = s.isActive from rfl,
    show (s.since before).cleared.program = s.cleared.program from rfl]
  cases s.isActive with
  | true => rfl
  | false =>
    simp only [Bool.false_eq_true, if_false]
    cases s.cleared.program <;> rfl

theorem operate_since (o : Operation) :
    (s.since before).operate o = (s.operate o).since before := by
  cases o with
  | apply change => cases change <;> rfl
  | start => exact congrArg (·.2) (start_since before s)
  | tick now => exact congrArg (·.2) ((forgets_tick before).goOn s now)
  | runSlice now => exact congrArg (·.2) ((forgets_runSlice before s.sliceBudget).goOn s now)
  | reset | clearPause => rfl

theorem answer_since (o : Operation) : (s.since before).answer o = s.answer o := by
  cases o with
  | apply change => cases change <;> rfl
  | start => exact congrArg (fun r => Answer.started r.1) (start_since before s)
  | tick now =>
    exact congrArg (fun r => Answer.progressed r.1) ((forgets_tick before).goOn s now)
  | runSlice now =>
    exact congrArg (fun r => Answer.progressed r.1)
      ((forgets_runSlice before s.sliceBudget).goOn s now)
  | reset | clearPause => rfl

theorem issued?_since (o : Operation) : (s.since before).issued? o = s.issued? o := by
  cases o with
  | tick => exact (forgets_tick before).called? s
  | runSlice => exact (forgets_runSlice before s.sliceBudget).called? s
  | apply | start | reset | clearPause => rfl

end Since

section Fresh

variable {settings : Settings} {s : Session} {program? : Option Workspace}

/-- What a run begins with is the same in a new session but for the questions asked before. -/
theorem Loaded.cleared_eq (h : s.Loaded settings (program?.getD .empty)) (hi : s.isActive = false) :
    s.cleared = (fresh settings (.ofAnswers s.console.prompter.answers) program?).cleared.since
      s.console.prompter.asked := by
  have hm : s.machine = none := by simpa [isActive] using hi
  have hp := h.held.pending_none hi
  simp only [cleared, since, Console.since, Prompter.since, Prompter.ofAnswers, hm, hp,
    h.held.bridge, h.held.policy, h.sliceBudget, h.workspace, h.compiled]
  cases program? with
  | none =>
    rw [Option.getD_none, Workspace.compile_empty]
    simp only [fresh, new, List.append_nil]
  | some w => simp only [fresh, new, apply, reset, Option.getD_some, List.append_nil]

theorem Loaded.start_eq (h : s.Loaded settings (program?.getD .empty)) (hi : s.isActive = false) :
    let f := fresh settings (.ofAnswers s.console.prompter.answers) program?
    s.start = (f.start.1, f.start.2.since s.console.prompter.asked) := by
  intro f
  have hcleared : s.cleared = f.cleared.since s.console.prompter.asked := h.cleared_eq hi
  have hprogram : s.cleared.program = f.cleared.program := by rw [hcleared]; rfl
  have hf : f.isActive = false := by cases program? <;> rfl
  change s.program = f.program at hprogram
  rw [start_of_idle hi, start_of_idle hf, hcleared, hprogram]
  cases f.program <;> rfl

end Fresh

end Session

def Move.program? : Move → Option Workspace
  | .operation o => o.program?
  | .call => none

def lastProgram? (moves : List Move) : Option Workspace := (moves.filterMap Move.program?).getLast?

namespace Observed

variable {σ : Type} (service : Service σ)

def answer (x : Observed σ) : Move → Answer
  | .operation o => x.session.answer o
  | .call => .nothing

def answers (x : Observed σ) : List Move → List Answer
  | [] => []
  | m :: moves => x.answer m :: (x.move service m).answers moves

variable {settings : Settings} {w : Workspace}

theorem move_loaded {x : Observed σ} (h : x.session.Loaded settings w) (m : Move) :
    (x.move service m).session.Loaded settings (m.program?.getD w) := by
  cases m with
  | operation o => exact Session.operate_loaded h o
  | call =>
    simp only [move, callOn]
    cases hp : x.session.pending with
    | none => exact h
    | some p => exact h.callOn hp _

theorem loaded_after (settings : Settings) (prompter : Prompter) (api : σ) (moves : List Move) :
    (after service settings prompter api moves).session.Loaded settings
      ((lastProgram? moves).getD .empty) := by
  have hnew := Session.loaded_new settings prompter
  unfold after lastProgram?
  generalize Workspace.empty = w at hnew
  change (⟨.new settings prompter, api, []⟩ : Observed σ).session.Loaded settings w at hnew
  generalize (⟨.new settings prompter, api, []⟩ : Observed σ) = x at hnew
  induction moves generalizing x w with
  | nil => exact hnew
  | cons m moves ih =>
    have hmoves := ih _ _ (move_loaded service hnew m)
    cases hm : m.program? with
    | none =>
      rw [hm] at hmoves
      simpa [List.filterMap_cons, hm] using hmoves
    | some w' =>
      rw [hm] at hmoves
      simpa [List.filterMap_cons, hm, List.getLast?_cons] using hmoves

section Since

variable {service} (before : List Question) (x : Observed σ)

def since : Observed σ := { x with session := x.session.since before }

theorem move_since (m : Move) : (x.since before).move service m = (x.move service m).since before := by
  cases m with
  | operation o =>
    simp only [move, operate, since, Session.operate_since, Session.issued?_since]
    rfl
  | call =>
    simp only [move, callOn, since, show (x.session.since before).pending = x.session.pending from rfl]
    cases x.session.pending <;> rfl

theorem answer_since (m : Move) : (x.since before).answer m = x.answer m := by
  cases m with
  | operation o => exact x.session.answer_since before o
  | call => rfl

theorem moves_since (moves : List Move) :
    moves.foldl (move service) (x.since before) = (moves.foldl (move service) x).since before := by
  induction moves generalizing x with
  | nil => rfl
  | cons m moves ih => rw [List.foldl_cons, move_since, ih, List.foldl_cons]

theorem answers_since (moves : List Move) :
    (x.since before).answers service moves = x.answers service moves := by
  induction moves generalizing x with
  | nil => rfl
  | cons m moves ih => rw [answers, answers, answer_since, move_since, ih]

end Since

/-- At any time a session holds the program that was brought last, and what it has compiled is that
program. Where no run is active, beginning one and whatever is done from then on is answered as in a new
session with the same settings, to which only that program was brought, with the answers that the prompter
and the service still have: but for the questions that were asked before, the two have the same state
throughout, and the same calls, exchanges and results in their runs. -/
theorem nothing_leaks (service : Service σ) (settings : Settings) (prompter : Prompter) (api : σ)
    (moves : List Move) :
    let x := after service settings prompter api moves
    let s := x.session
    let asked := s.console.prompter.asked
    let program? := lastProgram? moves
    let fresh : Observed σ :=
      ⟨.fresh settings (.ofAnswers s.console.prompter.answers) program?, x.api, []⟩
    s.workspace = program?.getD .empty ∧ s.compiled = s.workspace.compile ∧
    (s.isActive = false → ∀ later,
      let begun := .operation .start :: later
      let u := begun.foldl (move service) x
      let v := begun.foldl (move service) fresh
      x.answers service begun = fresh.answers service begun ∧
        u.session = v.session.since asked ∧ u.api = v.api ∧ u.events = v.events) := by
  intro x s asked program? fresh
  have hloaded : s.Loaded settings (program?.getD .empty) :=
    loaded_after service settings prompter api moves
  refine ⟨hloaded.workspace, hloaded.compiled.trans (by rw [hloaded.workspace]), fun hi later => ?_⟩
  have hstart := hloaded.start_eq hi
  have hf : fresh.session.isActive = false := by
    cases hp : program? <;> simp only [fresh, hp] <;> rfl
  -- a start clears all that an earlier run has left but the number of questions asked
  have hbegun : x.move service (.operation .start) =
      (fresh.move service (.operation .start)).since asked := by
    have hs : x.session.isActive = false := hi
    simp only [move, operate, Session.operate, Session.begins, hs, hf, since]
    rw [hstart]
    rfl
  have hanswer : x.answer (.operation .start) = fresh.answer (.operation .start) := by
    simp only [answer, Session.answer]
    rw [hstart]
  dsimp only
  rw [List.foldl_cons, List.foldl_cons, answers, answers, hbegun, hanswer, moves_since, answers_since]
  exact ⟨rfl, rfl, rfl, rfl⟩

/-- A run that waits is discarded for a program with errors, of which no run begins. -/
theorem nothing_leaks_focusAndPrint :
    let bring (w : Workspace) : Move := .operation (.apply (.program w))
    let slice (now : Nat) : Move := .operation (.runSlice now)
    let moves := [bring focusAndPrint, .operation .start, slice 0, .call,
      bring ⟨[], [[.ofKind "odd" "odd"]]⟩, .operation .start, bring focusAndPrint]
    let begun := [.operation .start, slice 20, .call, slice 30]
    let x := after Prepared.service {} (.ofAnswers ["unasked"]) slowFocus moves
    let fresh : Observed Prepared :=
      ⟨.fresh {} (.ofAnswers ["unasked"]) (some focusAndPrint), x.api, []⟩
    fresh.answers Prepared.service begun =
      [.started true, .progressed .waiting, .nothing, .progressed .finished] ∧
    (begun.foldl (move Prepared.service) fresh).session.console.transcript =
      ["done", "<< Program complete >>"] := by
  intro bring slice moves begun x fresh
  have hx : (x.session.isActive = false ∧ x.session.console.prompter.answers = ["unasked"]) ∧
      x.answers Prepared.service begun =
        [.started true, .progressed .waiting, .nothing, .progressed .finished] ∧
      (begun.foldl (move Prepared.service) x).session.console.transcript =
        ["done", "<< Program complete >>"] := by decide +kernel
  obtain ⟨⟨hi, hprompter⟩, hanswer, htranscript⟩ := hx
  obtain ⟨-, -, hfresh⟩ := nothing_leaks Prepared.service {} (.ofAnswers ["unasked"]) slowFocus moves
  obtain ⟨hanswers, hsession, -⟩ := hfresh hi [slice 20, .call, slice 30]
  have hprogram : lastProgram? moves = some focusAndPrint := rfl
  rw [hprompter, hprogram] at hanswers hsession
  exact ⟨hanswers.symm.trans hanswer, (congrArg (·.console.transcript) hsession).symm.trans htranscript⟩

end Observed

end ScopeBlocks
