import ScopeBlocks.Device.Route

/-! Calls carried out in the background. An errand does one thing at a time, each at the millisecond at
which it is due: it begins, it polls, or its wait is over. An action is started by its first reply and
polled at equal distances until a reply settles it. -/
namespace ScopeBlocks

open Script (AsyncCall DeviceCall Value)

/-- The part of the last reply that a call is after. -/
inductive Pick where
  | whole
  | field (name : String)
  | sharpness
  deriving DecidableEq, Repr

def Pick.apply (path : String) (reply : Json) : Pick → Except DeviceError Json
  | .whole => .ok reply
  | .field name =>
    match reply.get? name with
    | some part => .ok part
    | none => .error (.missingField path name)
  | .sharpness =>
    match ((reply.get? "output").bind (·.get? "sharpness")) <|> reply.get? "sharpness" with
    | some part => .ok part
    | none => .error (.missingField path "sharpness")

inductive Goal where
  | wait (duration : Nat)
  | read (path : String) (pick : Pick)
  | act (request : ActionRequest) (pick : Pick)
  deriving Repr

inductive Stage where
  | created (goal : Goal)
  | waiting
  | polling (path : String) (pick : Pick) (href : String) (polls : Nat)
  | settled (result : Except DeviceError Json)

/-- The stage of an errand, and when it goes on from there or, at its end, since when it is there. -/
structure Errand where
  stage : Stage
  due : Nat

inductive ActionStatus where
  | pending
  | running
  | completed
  | failed
  deriving DecidableEq, Repr

def ActionStatus.text : ActionStatus → String
  | .pending => "pending"
  | .running => "running"
  | .completed => "completed"
  | .failed => "failed"

/-- What a reply to a start or a poll means. -/
inductive Verdict where
  | unsettled
  | broken (status : String)
  | settled
  deriving DecidableEq, Repr

def Verdict.ofReply (reply : Json) : Verdict :=
  match (reply.get? "status").bind Json.str? with
  | some "pending" | some "running" => .unsettled
  | some "failed" => .broken "failed"
  | some "error" => .broken "error"
  | some "cancelled" => .broken "cancelled"
  | _ => .settled

namespace Bridge

variable {σ : Type}

/-- The wait of a call in milliseconds. -/
def milliseconds (seconds : Number) : Nat :=
  (((Number.ofNat 1000).mul seconds).roundBetween 0 Word.limit).toNat

def goal (b : Bridge) : AsyncCall → Goal
  | .wait seconds => .wait (milliseconds seconds)
  | .device call =>
    match b.route call, call with
    | .property path, .getPosition axis => .read path (.field axis.lower)
    | .property path, _ => .read path .whole
    | .action request, .sharpness => .act request .sharpness
    | .action request, _ => .act request .whole

/-- The stage after so many polls, the last of which had an outcome. -/
def afterReply (b : Bridge) (path : String) (pick : Pick) (polls : Nat) :
    Except DeviceError Json → Stage
  | .error e => .settled (.error e)
  | .ok reply =>
    match Verdict.ofReply reply with
    | .settled => .settled (pick.apply path reply)
    | .broken status => .settled (.error (.actionFailed path status))
    | .unsettled =>
      if b.maxPolls.any (· ≤ polls) then .settled (.error (.timeout path polls))
      else
        match (reply.get? "href").bind Json.str? with
        | some href => .polling path pick (b.absolute href) polls
        | none => .settled (.error (.missingField path "href"))

/-- Polls come one interval after the reply before them. -/
def errandAt (b : Bridge) (now : Nat) : Stage → Errand
  | .polling path pick href polls => ⟨.polling path pick href polls, now + b.pollInterval⟩
  | stage => ⟨stage, now⟩

def fire (b : Bridge) (service : Service σ) (e : Errand) (s : σ) : Errand × σ :=
  match e.stage with
  | .created (.wait duration) => (⟨.waiting, e.due + duration⟩, s)
  | .created (.read path pick) =>
    let (r, s) := service.get (b.propertyUrl path) s
    (⟨.settled (r.bind (pick.apply path)), e.due⟩, s)
  | .created (.act request pick) =>
    let (r, s) := service.ask ⟨request.method, b.actionUrl request.path, request.body⟩ s
    (b.errandAt e.due (b.afterReply request.path pick 0 r), s)
  | .waiting => (⟨.settled (.ok .null), e.due⟩, s)
  | .polling path pick href polls =>
    let (r, s) := service.get href s
    (b.errandAt e.due (b.afterReply path pick (polls + 1) r), s)
  | .settled _ => (e, s)

end Bridge

namespace Errand

def result? (e : Errand) : Option (Except DeviceError Json) :=
  match e.stage with
  | .settled r => some r
  | _ => none

def isSettled (e : Errand) : Bool := e.result?.isSome

def status (e : Errand) : ActionStatus :=
  match e.stage with
  | .created _ => .pending
  | .waiting | .polling .. => .running
  | .settled (.ok _) => .completed
  | .settled (.error _) => .failed

variable {σ : Type}

/-- More steps than any errand takes that comes to an end. -/
def patience : Nat := 1000000000000

def finishWithin (b : Bridge) (service : Service σ) : Nat → Errand → σ → Errand × σ
  | 0, e, s => (e, s)
  | n + 1, e, s =>
    if e.isSettled then (e, s)
    else
      let (e, s) := b.fire service e s
      finishWithin b service n e s

def finish (b : Bridge) (service : Service σ) (e : Errand) (s : σ) : Errand × σ :=
  finishWithin b service patience e s

def advanceWithin (b : Bridge) (service : Service σ) (time : Nat) : Nat → Errand → σ → Errand × σ
  | 0, e, s => (e, s)
  | n + 1, e, s =>
    if e.isSettled || time < e.due then (e, s)
    else
      let (e, s) := b.fire service e s
      advanceWithin b service time n e s

def advance (b : Bridge) (service : Service σ) (time : Nat) (e : Errand) (s : σ) : Errand × σ :=
  advanceWithin b service time patience e s

end Errand

/-- How a call ended, as a script sees it. -/
inductive Resolution where
  | completed (value : Value)
  | failed (message : String)

def Resolution.ofResult : Except DeviceError Json → Resolution
  | .ok reply => .completed (Value.ofJson reply)
  | .error e => .failed e.message

/-- A call under way; its resolution is handed out once. -/
structure PendingCall where
  call : AsyncCall
  errand : Errand
  delivered : Bool

namespace PendingCall

def spawn (b : Bridge) (call : AsyncCall) (now : Nat) : PendingCall :=
  ⟨call, ⟨.created (b.goal call), now⟩, false⟩

/-- The resolution that is asked for again. -/
def spent : Resolution := .failed "action task ended without a result"

def take (p : PendingCall) : Option Resolution × PendingCall :=
  match p.errand.result? with
  | none => (none, p)
  | some r => (some (if p.delivered then spent else .ofResult r), { p with delivered := true })

def advance {σ : Type} (b : Bridge) (service : Service σ) (time : Nat) (p : PendingCall) (s : σ) :
    PendingCall × σ :=
  let (errand, s) := p.errand.advance b service time s
  ({ p with errand }, s)

/-- Lets time pass from `now` on; in no time nothing happens. -/
def sleep {σ : Type} (b : Bridge) (service : Service σ) (now duration : Nat) (p : PendingCall)
    (s : σ) : PendingCall × σ :=
  if duration = 0 then (p, s) else p.advance b service (now + duration) s

end PendingCall

end ScopeBlocks
