import ScopeBlocks.Device.Errand
import ScopeBlocks.Script.Machine
import ScopeBlocks.Script.Parse
import ScopeBlocks.Session.Highlight
import ScopeBlocks.Workspace.Code

/-! The life of a program in an editing session: its workspace and compiled text, the run that is in
progress, the one call that the run waits for, the highlighted block and the transcript. A session
says what it means to go on; when it goes on is decided elsewhere. -/
namespace ScopeBlocks

open Script (Machine Host Step)

/-- A question put by a script and what was answered. -/
structure Question where
  message : String
  answer : Option String
  deriving DecidableEq, Repr

/-- Answers given in order; questions after the last one are dismissed. -/
structure Prompter where
  answers : List String
  asked : List Question
  deriving DecidableEq, Repr

namespace Prompter

def ofAnswers (answers : List String) : Prompter := ⟨answers, []⟩

def ask (p : Prompter) (message : String) : Option String × Prompter :=
  (p.answers.head?, ⟨p.answers.tail, p.asked ++ [⟨message, p.answers.head?⟩]⟩)

end Prompter

/-- What a running script acts on. -/
structure Console where
  transcript : List String
  highlight : Highlight
  prompter : Prompter
  deriving Repr

namespace Console

def log (c : Console) (line : String) : Console := { c with transcript := c.transcript ++ [line] }

def host : Host Console where
  print text c := c.log text
  prompt message _ c :=
    let (answer, prompter) := c.prompter.ask message
    (answer, { c with prompter })
  mark id c := { c with highlight := c.highlight.mark id }

end Console

inductive Outcome where
  | completed (failedActions : Nat)
  | failed (message : String)
  deriving DecidableEq, Repr

namespace Outcome

/-- The last line of a run's transcript. -/
def banner : Outcome → String
  | .completed 0 => "<< Program complete >>"
  | .completed n => s!"<< Program complete ({n} action(s) failed) >>"
  | .failed message => s!"<< Program failed: {message} >>"

def isFailure : Outcome → Bool
  | .completed _ => false
  | .failed _ => true

end Outcome

/-- What going on came to: more remains, a call is awaited, or no run is active any more. -/
inductive Progress where
  | advanced
  | waiting
  | finished
  deriving DecidableEq, Repr

/-- What an editor reports: a change of view or a new program. -/
inductive Change where
  | view
  | program (w : Workspace)
  deriving Repr

structure Session where
  bridge : Bridge
  policy : FailurePolicy
  sliceBudget : Nat
  workspace : Workspace
  compiled : Except CompileError Compiled
  machine : Option Machine
  console : Console
  pending : Option PendingCall
  outcome : Option Outcome
  failedActions : Nat

namespace Session

/-- A session with an empty program; a slice of a run has at least one unit. -/
def new (settings : Settings) (prompter : Prompter) : Session where
  bridge := .ofSettings settings
  policy := settings.failurePolicy
  sliceBudget := max settings.sliceBudget 1
  workspace := .empty
  compiled := .ok .empty
  machine := none
  console := ⟨[], .none, prompter⟩
  pending := none
  outcome := none
  failedActions := 0

def isActive (s : Session) : Bool := s.machine.isSome

def isPaused (s : Session) : Bool := s.console.highlight.paused

def compileError? (s : Session) : Option String :=
  match s.compiled with
  | .ok _ => none
  | .error e => some e.message

def actionStatus? (s : Session) : Option ActionStatus := s.pending.map (·.errand.status)

/-- Discards the run with its call and its highlight; transcript and outcome stay. -/
def reset (s : Session) : Session :=
  { s with machine := none, pending := none, console.highlight := .none }

def clearPause (s : Session) : Session :=
  { s with console.highlight := s.console.highlight.clearPause }

def finish (s : Session) (outcome : Outcome) : Session :=
  let s := s.reset
  { s with console := s.console.log outcome.banner, outcome := some outcome }

/-- A new program ends the run and clears what it left behind. -/
def apply (s : Session) : Change → Session
  | .view => s
  | .program w =>
    let s := s.reset
    { s with console.transcript := [], outcome := none, workspace := w, compiled := w.compile }

/-- The code of the program, parsed, or why there is no run of it. -/
def program (s : Session) : Except String Script.Program :=
  match s.compiled with
  | .error e => .error ("program does not compile: " ++ e.message)
  | .ok compiled => (Script.parse compiled.code).mapError (·.message)

def cleared (s : Session) : Session :=
  { s with
    console := { s.console with transcript := [], highlight := .none }
    outcome := none
    failedActions := 0 }

/-- Begins a run unless one is active; whether one then is. -/
def start (s : Session) : Bool × Session :=
  if s.isActive then (true, s)
  else
    let s := s.cleared
    match s.program with
    | .ok program => (true, { s with machine := some (.ofProgram program) })
    | .error message => (false, s.finish (.failed message))

/-- The session after a step of its run; a call that the script makes begins at the given time. -/
def afterStep (s : Session) (now : Nat) : Except Script.Error Step → Progress × Session
  | .ok .continue => (.advanced, s)
  | .ok (.suspend call) => (.waiting, { s with pending := some (.spawn s.bridge call now) })
  | .ok .pending => (.waiting, s)
  | .ok .done => (.finished, s.finish (.completed s.failedActions))
  | .error e => (.finished, s.finish (.failed e.message))

/-- Hands a value to the script, which goes on unless it awaits none. -/
def deliver (s : Session) (v : Script.Value) : Option Progress × Session :=
  match s.machine with
  | none => (none, s)
  | some m =>
    match m.resolve? v with
    | some m => (none, { s with machine := some m })
    | none => (some .finished, s.finish (.failed Script.notSuspendedMessage))

/-- Notes that a call has failed; the script goes on with an error value, or its run ends. -/
def deliverFailure (s : Session) (call : Script.AsyncCall) (message : String) :
    Option Progress × Session :=
  let s := { s with
    failedActions := s.failedActions + 1
    console := s.console.log s!"Action {call.text} failed: {message}" }
  match s.policy with
  | .abort => (some .finished, s.finish (.failed s!"{call.text} failed: {message}"))
  | .continue => s.deliver (.error message)

/-- Delivers the result of the awaited call. Where there is a progress already, the run cannot go on
now. -/
def settle (s : Session) : Option Progress × Session :=
  match s.pending with
  | none => (none, s)
  | some p =>
    match p.take with
    | (none, p) => (some .waiting, { s with pending := some p })
    | (some (.completed v), _) => { s with pending := none }.deliver v
    | (some (.failed message), _) => { s with pending := none }.deliverFailure p.call message

/-- Settles the awaited call and lets the run go on. -/
def goOn (s : Session) (now : Nat)
    (run : Machine → Console → Except Script.Error Step × Machine × Console)
    (after : Session → Session) : Progress × Session :=
  match s.settle with
  | (some progress, s) => (progress, s)
  | (none, s) =>
    match s.machine with
    | none => (.finished, s)
    | some m =>
      let (step, m, console) := run m s.console
      (after { s with machine := some m, console }).afterStep now step

def tick (s : Session) (now : Nat) : Progress × Session := s.goOn now (·.step Console.host ·) id

/-- A slice of the run, which stops at no highlighted block. -/
def runSlice (s : Session) (now : Nat) : Progress × Session :=
  s.goOn now (·.runBounded Console.host s.sliceBudget ·) clearPause

/-- The session after a while in which its awaited call goes on by itself. -/
def sleep {σ : Type} (service : Service σ) (now duration : Nat) (s : Session) (api : σ) :
    Session × σ :=
  match s.pending with
  | none => (s, api)
  | some p =>
    let (p, api) := p.sleep s.bridge service now duration api
    ({ s with pending := some p }, api)

end Session

end ScopeBlocks
