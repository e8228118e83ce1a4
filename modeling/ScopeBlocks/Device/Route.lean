import ScopeBlocks.Device.Request
import ScopeBlocks.Device.Settings
import ScopeBlocks.Script.Call
import ScopeBlocks.Text.Blank

/-! Where calls go: a property that is read with one request, or an action that is started and then
polled until it is settled. -/
namespace ScopeBlocks

open Script (DeviceCall AsyncCall Focus)

/-- A request by its path below the server's address. -/
structure ActionRequest where
  method : Method
  path : String
  body : Option Json
  deriving Repr

inductive Route where
  | property (path : String)
  | action (request : ActionRequest)
  deriving Repr

/-- What a device call needs to know of the settings. -/
structure Bridge where
  baseUrl : String
  propertyPrefix : String
  positionerName : String
  pollInterval : Nat
  maxPolls : Option Nat
  deriving DecidableEq, Repr

namespace Bridge

def isSlash (c : Char) : Bool := c == '/'

def ofSettings (s : Settings) : Bridge where
  baseUrl := Text.trimEnd isSlash s.baseUrl
  propertyPrefix := Text.trimEnd isSlash (Text.trimStart isSlash s.propertyPrefix)
  positionerName := s.positionerName
  pollInterval := s.pollInterval
  maxPolls := s.maxPolls

def propertyUrl (b : Bridge) (path : String) : String := s!"{b.baseUrl}/{b.propertyPrefix}/{path}"

def actionUrl (b : Bridge) (path : String) : String := s!"{b.baseUrl}/{path}"

/-- An address as a reply gives it, in full or below the server's address. -/
def absolute (b : Bridge) (href : String) : String :=
  if "http://".isPrefixOf href || "https://".isPrefixOf href then href
  else b.actionUrl (Text.trimStart isSlash href)

def positionPath : String := "instrument/state/stage/position"

def autofocusPath : String := "extensions/org.openflexure.autofocus"

/-- The whole numbers from below zero to as far above it, in equal steps. -/
def sweep (range step : Nat) : Json :=
  .arr <| (List.range (2 * range / step + 1)).map fun (i : Nat) =>
    .int ((i * step : Nat) - range)

def autofocusRequest : Focus → ActionRequest
  | .fast => ⟨.post, autofocusPath ++ "/fast_autofocus", some (.object [("dz", .int 2000)])⟩
  | .medium => ⟨.post, autofocusPath ++ "/autofocus", some (.object [("dz", sweep 90 30)])⟩
  | .fine => ⟨.post, autofocusPath ++ "/autofocus", some (.object [("dz", sweep 30 10)])⟩

def boolText (b : Bool) : String := if b then "true" else "false"

def route (b : Bridge) : DeviceCall → Route
  | .capture => .action ⟨.get, "CommunicationChannel/acquireImage", none⟩
  | .moveStage axis mode amount =>
    .action ⟨.get, "PositionerController/movePositioner?positionerName=" ++ b.positionerName ++
      "&axis=" ++ axis.upper ++ "&dist=" ++ amount.text ++ "&isAbsolute=" ++
      boolText mode.isAbsolute, none⟩
  | .moveStage3d mode x y z =>
    .action ⟨.post, "actions/stage/move", some <| .object [("absolute", .bool mode.isAbsolute),
      ("x", .ofNumber x), ("y", .ofNumber y), ("z", .ofNumber z)]⟩
  | .autofocus focus => .action (autofocusRequest focus)
  | .sharpness => .action ⟨.post, autofocusPath ++ "/measure_sharpness", some (.obj .empty)⟩
  | .getPosition _ => .property positionPath

end Bridge

end ScopeBlocks
