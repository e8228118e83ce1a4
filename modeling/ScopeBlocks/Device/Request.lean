import ScopeBlocks.Json.Basic

/-! Requests to the instrument's server, and how they fail. -/
namespace ScopeBlocks

inductive Method where
  | get
  | post
  deriving DecidableEq, Repr

def Method.text : Method → String
  | .get => "GET"
  | .post => "POST"

structure Request where
  method : Method
  url : String
  body : Option Json
  deriving Repr

inductive DeviceError where
  | transport (url reason : String)
  | status (url : String) (code : Nat)
  | actionFailed (path status : String)
  | timeout (path : String) (polls : Nat)
  | missingField (path field : String)
  deriving DecidableEq, Repr

def DeviceError.message : DeviceError → String
  | .transport url reason => s!"request to {url} failed: {reason}"
  | .status url code => s!"{url} answered HTTP {code}"
  | .actionFailed path ending => s!"action {path} ended with status '{ending}'"
  | .timeout path polls => s!"action {path} still unsettled after {polls} polls"
  | .missingField path field => s!"response from {path} has no '{field}'"

/-- What answers requests, with a state of its own. -/
structure Service (σ : Type) where
  ask : Request → σ → Except DeviceError Json × σ

def Service.get {σ : Type} (service : Service σ) (url : String) (s : σ) :
    Except DeviceError Json × σ :=
  service.ask ⟨.get, url, none⟩ s

end ScopeBlocks
