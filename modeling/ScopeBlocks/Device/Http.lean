import ScopeBlocks.Device.Request
import ScopeBlocks.Json.Reader

/-! What the reply of a web server means: its status decides, and a body that is no JSON counts as
null. -/
namespace ScopeBlocks.Http

/-- The deepest nesting of arrays and objects that is read. -/
def depthLimit : Nat := 127

def isBlank (b : UInt8) : Bool := b == 0x20 || b == 0x09 || b == 0x0A || b == 0x0C || b == 0x0D

def bodyValue (body : ByteArray) : Json :=
  if body.toList.all isBlank then .null
  else ((String.fromUTF8? body).bind fun text => Json.read? depthLimit text.toList).getD .null

def outcome (url : String) (status : Nat) (body : ByteArray) : Except DeviceError Json :=
  if 200 ≤ status ∧ status ≤ 299 then .ok (bodyValue body) else .error (.status url status)

/-- What a request to a server comes to that is not there. -/
def unreachable (url : String) : DeviceError :=
  .transport url s!"error sending request for url ({url})"

end ScopeBlocks.Http
