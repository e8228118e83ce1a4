import ScopeBlocks.Device.Errand

/-! What a call asks of the service. An action is created by one request and polled by further ones,
each at the address that the unsettled reply before it gave; a property is read by one request. -/
namespace ScopeBlocks

open Script (AsyncCall DeviceCall)

/-- A request and what it came to. -/
abbrev Exchange := Request × Except DeviceError Json

/-- A service that writes down every exchange. -/
def Service.noting {σ : Type} (service : Service σ) : Service (σ × List Exchange) where
  ask r s :=
    let (reply, t) := service.ask r s.1
    (reply, t, s.2 ++ [(r, reply)])

/-- The exchanges of an action so far, and the last reply. -/
inductive Talk (b : Bridge) (call : DeviceCall) : List Exchange → Except DeviceError Json → Prop
  | create {request : ActionRequest} {reply : Except DeviceError Json}
      (route : b.route call = .action request) :
      Talk b call [(⟨request.method, b.actionUrl request.path, request.body⟩, reply)] reply
  | poll {xs : List Exchange} {last : Json} {href : String} {reply : Except DeviceError Json}
      (h : Talk b call xs (.ok last)) (unsettled : Verdict.ofReply last = .unsettled)
      (address : (last.get? "href").bind Json.str? = some href) :
      Talk b call (xs ++ [(⟨.get, b.absolute href, none⟩, reply)]) reply

/-- All that a call may ask for once it has begun; a wait asks for nothing. -/
inductive Conversation (b : Bridge) : AsyncCall → List Exchange → Prop
  | wait {seconds : Number} : Conversation b (.wait seconds) []
  | read {call : DeviceCall} {path : String} {reply : Except DeviceError Json}
      (route : b.route call = .property path) :
      Conversation b (.device call) [(⟨.get, b.propertyUrl path, none⟩, reply)]
  | act {call : DeviceCall} {xs : List Exchange} {last : Except DeviceError Json}
      (h : Talk b call xs last) : Conversation b (.device call) xs

/-- The exchanges after which the errand of a call is at a stage. -/
def Stage.Heard (b : Bridge) (call : AsyncCall) (xs : List Exchange) : Stage → Prop
  | .created goal => goal = b.goal call ∧ xs = []
  | .waiting => (∃ seconds, call = .wait seconds) ∧ xs = []
  | .polling _ _ address _ => ∃ c last href, call = .device c ∧ Talk b c xs (.ok last) ∧
      Verdict.ofReply last = .unsettled ∧ (last.get? "href").bind Json.str? = some href ∧
        address = b.absolute href
  | .settled _ => Conversation b call xs

namespace Bridge

variable {σ : Type} (b : Bridge) (service : Service σ)

theorem fire_noting (e : Errand) (s : σ) (xs : List Exchange) :
    (b.fire service.noting e (s, xs)).1 = (b.fire service e s).1 ∧
      (b.fire service.noting e (s, xs)).2.1 = (b.fire service e s).2 := by
  unfold fire
  rcases e with ⟨(_ | _ | _) | _ | _ | _, _⟩ <;> exact ⟨rfl, rfl⟩

theorem goal_wait {call : AsyncCall} {duration : Nat} (h : .wait duration = b.goal call) :
    ∃ seconds, call = .wait seconds := by
  cases call with
  | wait seconds => exact ⟨seconds, rfl⟩
  | device c =>
    unfold goal at h
    dsimp only at h
    split at h <;> cases h

theorem goal_read {call : AsyncCall} {path : String} {pick : Pick}
    (h : .read path pick = b.goal call) : ∃ c, call = .device c ∧ b.route c = .property path := by
  cases call with
  | wait seconds => cases h
  | device c =>
    refine ⟨c, rfl, ?_⟩
    unfold goal at h
    dsimp only at h
    split at h <;> cases h <;> assumption

theorem goal_act {call : AsyncCall} {request : ActionRequest} {pick : Pick}
    (h : .act request pick = b.goal call) : ∃ c, call = .device c ∧ b.route c = .action request := by
  cases call with
  | wait seconds => cases h
  | device c =>
    refine ⟨c, rfl, ?_⟩
    unfold goal at h
    dsimp only at h
    split at h <;> cases h <;> assumption

variable {b} {c : DeviceCall} {xs : List Exchange}

theorem errandAt_stage (now : Nat) (stage : Stage) : (b.errandAt now stage).stage = stage := by
  unfold errandAt
  split <;> rfl

theorem heard_afterReply {path : String} {pick : Pick} {polls : Nat}
    {reply : Except DeviceError Json} (h : Talk b c xs reply) :
    (b.afterReply path pick polls reply).Heard b (.device c) xs := by
  unfold afterReply
  split
  next => exact .act h
  next last =>
    split
    next => exact .act h
    next => exact .act h
    next hverdict =>
      split
      · exact .act h
      · split
        next href haddress => exact ⟨c, last, href, rfl, h, hverdict, haddress, rfl⟩
        next => exact .act h

/-- Going on, an errand makes the next exchange of its call. -/
theorem heard_fire {call : AsyncCall} {e : Errand} (h : e.stage.Heard b call xs) (s : σ) :
    (b.fire service.noting e (s, [])).1.stage.Heard b call
      (xs ++ (b.fire service.noting e (s, [])).2.2) := by
  obtain ⟨stage, due⟩ := e
  cases stage with
  | created goal =>
    obtain ⟨hgoal, rfl⟩ := h
    cases goal with
    | wait duration => exact ⟨b.goal_wait hgoal, rfl⟩
    | read path pick =>
      obtain ⟨c, rfl, hroute⟩ := b.goal_read hgoal
      exact .read hroute
    | act request pick =>
      obtain ⟨c, rfl, hroute⟩ := b.goal_act hgoal
      unfold fire
      dsimp only
      rw [errandAt_stage]
      exact heard_afterReply (.create hroute)
  | waiting =>
    obtain ⟨⟨seconds, rfl⟩, rfl⟩ := h
    exact .wait
  | polling path pick address polls =>
    obtain ⟨c, last, href, rfl, htalk, hverdict, haddress, rfl⟩ := h
    unfold fire
    dsimp only
    rw [errandAt_stage]
    exact heard_afterReply (.poll htalk hverdict haddress)
  | settled r =>
    unfold fire
    rw [List.append_nil]
    exact h

end Bridge

theorem Stage.Heard.begun {b : Bridge} {call : AsyncCall} {xs : List Exchange} {stage : Stage}
    (h : stage.Heard b call xs) : xs = [] ∨ Conversation b call xs := by
  cases stage with
  | created => exact .inl h.2
  | waiting => exact .inl h.2
  | polling =>
    obtain ⟨c, last, href, rfl, htalk, -⟩ := h
    exact .inr (.act htalk)
  | settled => exact .inr h

end ScopeBlocks
