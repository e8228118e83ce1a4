import ScopeBlocks.Cli.Report
import ScopeBlocks.Device.Prepared
import ScopeBlocks.Session.Queue
import ScopeBlocks.Text.Split

/-! A program driven from the terminal: run at once, or stepped from block to block by lines of input. The
scheduler goes on by itself and shows snapshots, of which the drive looks at the one that is shown when it
happens to look; new lines of the transcript are echoed as it sees them. Input lines serve both as commands
and as answers to the script's questions. -/
namespace ScopeBlocks.Cli

/-- Replies without an instrument: every action is settled at once. -/
def offline : Prepared :=
  (Prepared.empty.always Bridge.positionPath
    (.json (.object [("x", .int 0), ("y", .int 0), ("z", .int 0)]))).always
    "measure_sharpness" (.json (.object [("sharpness", .int 0)]))

/-- What is awaited: a line with a command, the end of a run or a pause in it, or nothing any more. -/
inductive Phase where
  | command
  | following
  | ended (outcome : Option Outcome)
  deriving DecidableEq, Repr

/-- A scheduler with its messages, and the drive that follows it. -/
structure Drive (σ : Type) where
  queue : SchedulerQueue σ
  stepping : Bool
  /-- Whether a snapshot has been shown that the drive has not seen. -/
  fresh : Bool
  /-- How many lines of the transcript have been echoed. -/
  printed : Nat
  phase : Phase

/-- What comes next, in the scheduler or in the drive. -/
inductive Turn where
  /-- The scheduler attends to a message or to its continuation. -/
  | attend
  /-- The awaited call goes on. -/
  | call
  | pass (duration : Nat)
  /-- The drive takes a command and sends it. -/
  | command
  /-- The drive looks at the snapshot that is shown. -/
  | look
  deriving DecidableEq, Repr

namespace Drive

def isLineEnd (c : Char) : Bool := c == '\r' || c == '\n'

def lines (input : List Char) : List String :=
  (Text.lines input).map fun line => String.ofList (Text.dropEndWhile isLineEnd line)

def instructions : String := "Enter: step to the next block, r: run to the end, q: quit\n"

section

variable {σ : Type} (d : Drive σ)

def session : Session := d.queue.timeline.scheduler.session

def prompter : Prompter := d.session.console.prompter

def setPrompter (p : Prompter) : Drive σ :=
  { d with queue.timeline.scheduler.session.console := { d.session.console with prompter := p } }

def post (m : Message) : Drive σ := { d with queue := (d.queue.post m).getD d.queue }

/-- The drive has an outcome, or none as it is given up, and shuts the scheduler down. -/
def finish (outcome : Option Outcome) : Drive σ :=
  { d.post .shutdown with phase := .ended outcome }

/-- The scheduler's turn. The questions that a script asks are put at once. -/
def attend (service : Service σ) : Drive σ × List Output :=
  let after := { d with queue := d.queue.attend service, fresh := d.fresh || d.queue.shows }
  (after, (after.prompter.asked.drop d.prompter.asked.length).map fun q => err (q.message ++ " "))

/-- Sends a command. What has been shown before it counts as seen. -/
def send (c : Command) : Drive σ :=
  { d.post (.command c) with fresh := false, phase := .following }

/-- Takes the next line of input as a command; without one the drive ends. A run needs no line. -/
def command : Drive σ :=
  if d.stepping then
    match d.prompter.answers with
    | [] => d.finish none
    | line :: rest =>
      let d := d.setPrompter { d.prompter with answers := rest }
      match Text.trim line with
      | "q" => d.finish none
      | "r" => d.send .run
      | _ => d.send .step
  else d.send .run

/-- Writes the new lines of a transcript, all of them if it has become shorter. -/
def echo (transcript : List String) : Drive σ × List Output :=
  let printed := if transcript.length < d.printed then 0 else d.printed
  ({ d with printed := transcript.length },
    (transcript.drop printed).map fun line => out (line ++ "\n"))

/-- What a snapshot means to the drive: the run is over, it has paused, or there is more to come. -/
def judge (s : Snapshot) : Drive σ × List Output :=
  if s.outcome.isSome then (d.finish s.outcome, [])
  else if d.stepping && s.mode = .paused then
    ({ d with phase := .command },
      s.highlight.current.toList.map fun id => err s!"-- paused at block {id}\n")
  else (d, [])

def look : Drive σ × List Output :=
  let s := d.queue.timeline.published
  let (d, lines) := { d with fresh := false }.echo s.transcript
  let (d, pauses) := d.judge s
  (d, lines ++ pauses)

/-- A turn, where it is the turn of what is to take it; else nothing happens. -/
def take (service : Service σ) : Turn → Drive σ × List Output
  | .attend => d.attend service
  | .call =>
    ({ d with queue.timeline := d.queue.timeline.happen service .call d.queue.timeline.now }, [])
  | .pass duration => ({ d with queue.timeline.now := d.queue.timeline.now + duration }, [])
  | .command => if d.phase = .command then (d.command, []) else (d, [])
  | .look => if d.phase = .following ∧ d.fresh then d.look else (d, [])

/-- The turn of a drive that sees every snapshot and waits for nothing longer than it has to. -/
def next? : Option Turn :=
  match d.phase with
  | .ended _ => none
  | phase =>
    if phase = .following ∧ d.fresh then some .look
    else if d.queue.waiting.isEmpty then
      if phase = .command then some .command
      else
        d.queue.timeline.next?.map fun (happening, due) =>
          if d.queue.timeline.now < due then .pass (due - d.queue.timeline.now)
          else
            match happening with
            | .call => .call
            | .continuation _ => .attend
    else some .attend

def code : Nat :=
  match d.phase with
  | .ended (some outcome) => if outcome.isFailure then 1 else 0
  | _ => 0

end

section

variable {σ : Type}

/-- A drive at its start. The scheduler has still to show itself, as it does after a change of the view, and
to take the program. -/
def new (settings : Settings) (w : Workspace) (stepping : Bool) (answers : List String) (api : σ) :
    Drive σ where
  queue := ⟨.new settings (.ofAnswers answers) api,
    [.command (.edit .view), .command (.edit (.program w))]⟩
  stepping := stepping
  fresh := false
  printed := 0
  phase := .command

def greeting (stepping : Bool) : List Output := if stepping then [err instructions] else []

def runWithin (service : Service σ) : Nat → Drive σ → List Output → Report
  | 0, d, shown => ⟨shown.reverse, d.code⟩
  | n + 1, d, shown =>
    match d.next? with
    | none => ⟨shown.reverse, d.code⟩
    | some turn =>
      let (d, outputs) := d.take service turn
      runWithin service n d (outputs.reverse ++ shown)

/-- All that a drive writes up to its end. -/
def run (service : Service σ) (api : σ) (settings : Settings) (w : Workspace) (stepping : Bool)
    (input : String) : Report :=
  runWithin service Timeline.patience (new settings w stepping (lines input.toList) api)
    (greeting stepping).reverse

/-- The questions of a turn up to the first that no line of input was left for; none if there is no such
question. -/
def starvedAt? (before after : Drive σ) : Option (List Question) :=
  let asked := after.prompter.asked.drop before.prompter.asked.length
  if asked.any (·.answer.isNone) then
    some (asked.takeWhile (·.answer.isSome) ++ (asked.find? (·.answer.isNone)).toList)
  else none

def supply (d : Drive σ) (line : String) : Drive σ :=
  d.setPrompter { d.prompter with answers := d.prompter.answers ++ [line] }

end

end Drive

end ScopeBlocks.Cli
