import ScopeBlocks.Script.Machine

/-! How a machine stands after its steps: what a driver is told is what the machine then is. -/
namespace ScopeBlocks.Script

/-- How a machine stands that was not waiting when it was driven. -/
def Stands (m : Machine) : Except Error Step → Prop
  | .ok .continue => m.status = .ready
  | .ok (.suspend call) => m.status = .awaiting call
  | .ok .pending => False
  | .ok .done | .error _ => m.status = .finished

namespace Machine

variable {σ : Type} {host : Host σ} {m : Machine}

theorem isSuspended_of_awaiting {call : AsyncCall} (h : m.status = .awaiting call) :
    m.isSuspended = true := by
  simp [isSuspended, h]

theorem not_isSuspended_of_ready (h : m.status = .ready) : m.isSuspended = false := by
  simp [isSuspended, h]

theorem advance_stands (m : Machine) (position : Position) :
    Stands (m.advance position)
      (.ok (if (m.advance position).isFinished then .done else .continue)) := by
  cases hp : (settle position.1).isEmpty <;> simp [advance, isFinished, Stands, hp]

variable (host) in
theorem step_stands (h : m.isSuspended = false) (s : σ) :
    Stands (m.step host s).2.1 (m.step host s).1 := by
  unfold step
  split
  next hstatus => exact hstatus
  next hstatus => simp [isSuspended, hstatus] at h
  next =>
    split
    · exact rfl
    · split
      next position tape _ => exact m.advance_stands position
      next => exact rfl
      next => exact rfl

variable (host) in
theorem runBounded_stands (budget : Nat) (h : m.isSuspended = false) (s : σ) :
    Stands (m.runBounded host budget s).2.1 (m.runBounded host budget s).1 := by
  induction budget generalizing m s with
  | zero =>
    unfold runBounded isFinished Stands
    unfold isSuspended at h
    cases hstatus : m.status <;> simp [hstatus] at h ⊢
  | succ budget ih =>
    have hstep := step_stands host h s
    unfold runBounded
    split
    next m' s' heq =>
      rw [heq] at hstep
      exact ih (not_isSuspended_of_ready hstep) s'
    next => exact hstep

theorem resolve?_of_awaiting {call : AsyncCall} (h : m.status = .awaiting call) (v : Value) :
    m.resolve? v = some { m with recorded := m.recorded ++ [v], status := .ready } := by
  simp [resolve?, h]

end Machine

end ScopeBlocks.Script
