import ScopeBlocks.Device.Errand
import ScopeBlocks.Proofs.Script.Vetted

/-! What becomes of the numbers of a call on their way to the device. -/
namespace ScopeBlocks.Bridge

open Script (AsyncCall Axis MoveMode)

/-- The length of a wait in milliseconds. Seconds can be converted where they are finite, not below zero and
fewer than 64 bits can hold. -/
def duration? (seconds : Number) : Option Nat :=
  if seconds.isFinite = true ∧ 0 ≤ seconds.value ∧ seconds.value < Word.limit then
    some (milliseconds seconds)
  else none

/-- What is done for a call: its seconds can be converted, its distance is written as a plain decimal, its
coordinates are numbers and not null, or it has no numbers. -/
inductive Conveys (b : Bridge) : AsyncCall → Goal → Prop
  | wait {seconds : Number} {duration : Nat} (h : duration? seconds = some duration) :
      Conveys b (.wait seconds) (.wait duration)
  | moveStage (axis : Axis) (mode : MoveMode) {amount : Number} (dist : String)
      (h : Number.PlainDecimal dist.toList) : Conveys b (.device (.moveStage axis mode amount)) <|
        .act ⟨.get, "PositionerController/movePositioner?positionerName=" ++ b.positionerName ++
          "&axis=" ++ axis.upper ++ "&dist=" ++ dist ++ "&isAbsolute=" ++ boolText mode.isAbsolute,
          none⟩ .whole
  | moveStage3d (mode : MoveMode) {x y z : Number} (h : ∀ c ∈ [x, y, z], c.isFinite = true) :
      Conveys b (.device (.moveStage3d mode x y z)) <|
        .act ⟨.post, "actions/stage/move", some (.object [("absolute", .bool mode.isAbsolute),
          ("x", .double x), ("y", .double y), ("z", .double z)])⟩ .whole
  | numberless {call : AsyncCall} (h : call.numbers = []) : Conveys b call (b.goal call)

theorem duration?_of_meaningful {seconds : Number} (h : (AsyncCall.wait seconds).Meaningful) :
    duration? seconds = some (milliseconds seconds) := by
  obtain ⟨hlow, hhigh⟩ := h.wait seconds rfl
  have hlimit : (Script.maxWaitSeconds : ℚ) < (Word.limit : ℚ) := by
    exact_mod_cast (by decide : Script.maxWaitSeconds < Word.limit)
  exact if_pos ⟨h.finite seconds List.mem_cons_self, hlow, hhigh.trans_lt hlimit⟩

theorem ofNumber_finite {x : Number} (h : x.isFinite = true) : Json.ofNumber x = .double x := if_pos h

theorem conveys_goal (b : Bridge) {call : AsyncCall} (h : call.Meaningful) :
    b.Conveys call (b.goal call) := by
  cases call with
  | wait seconds => exact .wait (duration?_of_meaningful h)
  | device call =>
    cases call with
    | moveStage axis mode amount =>
      refine .moveStage axis mode amount.text ?_
      rw [Number.text, String.toList_ofList]
      exact Number.textChars_plain (h.finite amount List.mem_cons_self)
    | moveStage3d mode x y z =>
      have hfinite : ∀ c ∈ [x, y, z], c.isFinite = true := h.finite
      unfold goal
      simp only [route]
      rw [ofNumber_finite (hfinite x (by simp)), ofNumber_finite (hfinite y (by simp)),
        ofNumber_finite (hfinite z (by simp))]
      exact .moveStage3d mode hfinite
    | capture | getPosition | autofocus | sharpness => exact .numberless rfl

end ScopeBlocks.Bridge
