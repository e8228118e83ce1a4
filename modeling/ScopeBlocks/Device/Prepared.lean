import ScopeBlocks.Device.Request
import ScopeBlocks.Text.Blank

/-! A service of prepared replies, chosen by a part of the address. Queued replies are given once each
and come before lasting ones; a request without a reply gets an empty object. Requests are recorded. -/
namespace ScopeBlocks

inductive Reply where
  | json (value : Json)
  | status (code : Nat)
  | unreachable
  deriving Repr

/-- The outcome that a reply is for whoever asked at an address. -/
def Reply.outcome (url : String) : Reply → Except DeviceError Json
  | .json value => .ok value
  | .status code => .error (.status url code)
  | .unreachable => .error (.transport url "connection refused")

structure Prepared where
  queued : List (String × List Reply)
  lasting : List (String × Reply)
  requests : List Request
  deriving Repr

namespace Prepared

def empty : Prepared := ⟨[], [], []⟩

/-- The reply at the end of the queue of a fragment. -/
def enqueue (fragment : String) (reply : Reply) :
    List (String × List Reply) → List (String × List Reply)
  | [] => [(fragment, [reply])]
  | (f, replies) :: rest =>
    if f = fragment then (f, replies ++ [reply]) :: rest
    else (f, replies) :: enqueue fragment reply rest

def queue (p : Prepared) (fragment : String) (reply : Reply) : Prepared :=
  { p with queued := enqueue fragment reply p.queued }

def always (p : Prepared) (fragment : String) (reply : Reply) : Prepared :=
  { p with lasting := p.lasting ++ [(fragment, reply)] }

/-- The first reply of the first queue that fits an address and is not used up. -/
def dequeue (url : String) :
    List (String × List Reply) → Option (Reply × List (String × List Reply))
  | [] => none
  | (f, replies) :: rest =>
    match Text.contains url f, replies with
    | true, reply :: replies => some (reply, (f, replies) :: rest)
    | _, _ => (dequeue url rest).map fun (reply, rest) => (reply, (f, replies) :: rest)

def lastingReply (p : Prepared) (url : String) : Reply :=
  match p.lasting.find? fun (fragment, _) => Text.contains url fragment with
  | some (_, reply) => reply
  | none => .json (.obj .empty)

def reply (p : Prepared) (r : Request) : Reply × Prepared :=
  let p := { p with requests := p.requests ++ [r] }
  match dequeue r.url p.queued with
  | some (reply, queued) => (reply, { p with queued })
  | none => (p.lastingReply r.url, p)

def service : Service Prepared where
  ask r p :=
    let (reply, p) := p.reply r
    (reply.outcome r.url, p)

end Prepared

end ScopeBlocks
