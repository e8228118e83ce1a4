import ScopeBlocks.Session.Basic

/-! When a session goes on. The scheduler takes commands and holds at most one continuation, which is due
at a set time: to go on stepping, to go on running, or to end the rest after a run. While it goes on by
itself the controls are off. -/
namespace ScopeBlocks

inductive Command where
  | edit (change : Change)
  | step
  | run
  | reset
  deriving Repr

inductive Mode where
  | idle
  | stepping
  | paused
  | running
  | cooldown
  deriving DecidableEq, Repr

def Mode.text : Mode → String
  | .idle => "idle"
  | .stepping => "stepping"
  | .paused => "paused"
  | .running => "running"
  | .cooldown => "cooldown"

inductive Continuation where
  | step
  | run
  | cooldown
  deriving DecidableEq, Repr

structure Scheduler where
  session : Session
  /-- The continuation and the time at which it is due. -/
  next : Option (Continuation × Nat)
  mode : Mode
  controls : Bool
  runTick : Nat
  cooldown : Nat

structure Snapshot where
  mode : Mode
  controls : Bool
  highlight : Highlight
  transcript : List String
  action : Option ActionStatus
  outcome : Option Outcome
  compileError : Option String
  deriving DecidableEq, Repr

namespace Scheduler

def new (settings : Settings) (prompter : Prompter) : Scheduler where
  session := .new settings prompter
  next := none
  mode := .idle
  controls := true
  runTick := settings.runTick
  cooldown := settings.cooldown

def snapshot (s : Scheduler) : Snapshot where
  mode := s.mode
  controls := s.controls
  highlight := s.session.console.highlight
  transcript := s.session.console.transcript
  action := s.session.actionStatus?
  outcome := s.session.outcome
  compileError := s.session.compileError?

def closedMessage : String := "scheduler has shut down"

/-- After a run the controls stay off for a while. -/
def finish (s : Scheduler) (now : Nat) : Scheduler :=
  { s with mode := .cooldown, controls := false, next := some (.cooldown, now + s.cooldown) }

/-- Steps until a block is highlighted, for so many units at most; then further commands come first. -/
def advanceStep (now : Nat) : Nat → Scheduler → Scheduler
  | 0, s => { s with next := some (.step, now) }
  | units + 1, s =>
    match s.session.tick now with
    | (.advanced, session) =>
      if session.isPaused then { s with session, mode := .paused, controls := true }
      else advanceStep now units { s with session }
    | (.waiting, session) => { s with session, next := some (.step, now + s.runTick) }
    | (.finished, session) => finish { s with session } now

def advanceRun (s : Scheduler) (now : Nat) : Scheduler :=
  match s.session.runSlice now with
  | (.finished, session) => finish { s with session } now
  | (_, session) => { s with session, next := some (.run, now + s.runTick) }

/-- Turns the controls off and begins a run unless one is active; whether one then is. -/
def start (s : Scheduler) (now : Nat) : Bool × Scheduler :=
  let (started, session) := s.session.start
  let s := { s with controls := false, session }
  if started then (true, s) else (false, s.finish now)

/-- Drops the continuation, but the rest after a run goes on to its end. -/
def cancel (s : Scheduler) : Scheduler :=
  match s.next with
  | some (.cooldown, _) => s
  | _ => { s with next := none, mode := .idle, controls := true }

/-- What a command does at a time. Steps and runs are ignored while the controls are off. -/
def handle (s : Scheduler) (now : Nat) : Command → Scheduler
  | .edit .view => s
  | .edit change =>
    let s := s.cancel
    { s with session := s.session.apply change }
  | .step =>
    if s.controls then
      match s.start now with
      | (true, s) =>
        advanceStep now s.session.sliceBudget { s with session := s.session.clearPause, mode := .stepping }
      | (false, s) => s
    else s
  | .run =>
    if s.controls then
      match s.start now with
      | (true, s) => { s with mode := .running }.advanceRun now
      | (false, s) => s
    else s
  | .reset =>
    let s := s.cancel
    { s with session := s.session.reset }

def resume (s : Scheduler) (now : Nat) (c : Continuation) : Scheduler :=
  let s := { s with next := none }
  match c with
  | .step => advanceStep now s.session.sliceBudget s
  | .run => s.advanceRun now
  | .cooldown => { s with mode := .idle, controls := true }

end Scheduler

end ScopeBlocks
