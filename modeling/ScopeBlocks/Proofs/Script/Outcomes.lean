import ScopeBlocks.Proofs.Script.Replay

/-! What the units of a script may come to, whatever their calls are answered. What every unit keeps of the
statements still to be run and of the variables, a machine keeps under any host and any driver; and it fails
only in the ways in which a unit may. -/
namespace ScopeBlocks.Script

variable {σ α β : Type}

/-- A dialogue has only values of one kind, and fails only in some ways. -/
def Dialogue.Yields (P : α → Prop) (Q : Error → Prop) : Dialogue α → Prop
  | .value a => P a
  | .fail e => Q e
  | .ask _ _ next => ∀ v, (next v).Yields P Q

namespace Dialogue.Yields

variable {P : α → Prop} {R : β → Prop} {Q : Error → Prop} {x : Dialogue α}

theorem pure {a : α} (h : P a) : Yields P Q (Pure.pure a : Dialogue α) := h

theorem bind {f : α → Dialogue β} (hx : x.Yields P Q) (hf : ∀ a, P a → (f a).Yields R Q) :
    Yields R Q (x >>= f) := by
  change Yields R Q (x.andThen f)
  induction x with
  | value a => exact hf a hx
  | fail e => exact hx
  | ask p args next ih => exact fun v => ih v (hx v)

theorem mono {P' : α → Prop} (h : x.Yields P Q) (hP : ∀ a, P a → P' a) : x.Yields P' Q := by
  induction x with
  | value a => exact hP a h
  | fail e => exact h
  | ask p args next ih => exact fun v => ih v (h v)

theorem call {p : Primitive} {args : List Value} :
    Yields (fun _ => True) Q (Dialogue.call p args) := fun _ => trivial

theorem ofFault {r : Except Fault α} (hP : ∀ a, r = .ok a → P a)
    (hQ : ∀ cause, r = .error cause → Q (.fault cause)) : Yields P Q (Dialogue.ofFault r) := by
  cases r with
  | ok a => exact hP a rfl
  | error cause => exact hQ cause rfl

end Dialogue.Yields

theorem Primitive.perform_cases (host : Host σ) (p : Primitive) (args : List Value) :
    (∃ f, p.perform host args = .onHost f) ∨ (∃ call, p.perform host args = .suspend call) ∨
      ∃ cause, p.perform host args = .fail (.misuse p cause) := by
  unfold perform
  split
  · split
    · exact .inl ⟨_, rfl⟩
    · exact .inl ⟨_, rfl⟩
    · exact .inr (.inr ⟨_, rfl⟩)
  · split
    · exact .inl ⟨_, rfl⟩
    · exact .inr (.inr ⟨_, rfl⟩)
  · split
    · exact .inl ⟨_, rfl⟩
    · exact .inr (.inr ⟨_, rfl⟩)
  · split
    · exact .inr (.inl ⟨_, rfl⟩)
    · exact .inr (.inr ⟨_, rfl⟩)

theorem Primitive.call_fails {host : Host σ} {p : Primitive} {args : List Value} {tape : Tape σ}
    {e : Error} (h : (p.call host args tape).1 = .error (.fail e)) : ∃ cause, e = .misuse p cause := by
  simp only [call, Evaluation.recordedOr, Evaluation.bind_apply] at h
  split at h
  next => cases h
  next =>
    obtain ⟨f, hf⟩ | ⟨call, hcall⟩ | ⟨cause, hcause⟩ := p.perform_cases host args
    · rw [hf] at h
      cases h
    · rw [hcall] at h
      cases h
    · rw [hcause] at h
      cases h
      exact ⟨cause, rfl⟩

/-- A dialogue that is done again comes to one of its values, waits, or fails in one of its ways or by the
misuse of a primitive. -/
theorem Dialogue.Yields.replay {P : α → Prop} {Q : Error → Prop} {x : Dialogue α}
    (h : x.Yields P Q) (host : Host σ) (misuse : ∀ p cause, Q (.misuse p cause)) (tape : Tape σ) :
    match (x.replay host tape).1 with
      | .ok a => P a
      | .error (.suspend _) => True
      | .error (.fail e) => Q e := by
  induction x generalizing tape with
  | value a => exact h
  | fail e => exact h
  | ask p args next ih =>
    simp only [Dialogue.replay, Evaluation.bind_apply]
    rcases hr : p.call host args tape with ⟨(call | e) | v, tape'⟩
    · trivial
    · obtain ⟨cause, rfl⟩ := Primitive.call_fails (congrArg (·.1) hr)
      exact misuse p cause
    · exact ih v (h v) tape'

/-- What units keep of the position of a machine, and the ways in which they may fail. -/
structure Abides (P : Position → Prop) (Q : Error → Prop) : Prop where
  settle : ∀ {frames store}, P (frames, store) → P (settle frames, store)
  halt : ∀ {frames store}, P (frames, store) → P ([], store)
  unit : ∀ {frames store}, P (frames, store) → (unitDialogue store frames).Yields P Q
  misuse : ∀ p cause, Q (.misuse p cause)

namespace Abides

variable {P : Position → Prop} {Q : Error → Prop} (h : Abides P Q) (host : Host σ) {m : Machine}

include h

/-- What a step leaves of a machine, and how it may fail. -/
theorem step (hm : P (m.frames, m.store)) (s : σ) :
    P ((m.step host s).2.1.frames, (m.step host s).2.1.store) ∧
      ∀ e, (m.step host s).1 = .error e → Q e := by
  have hsettled := h.unit (h.settle hm)
  unfold Machine.step
  split
  next => exact ⟨hm, by rintro e ⟨⟩⟩
  next => exact ⟨hm, by rintro e ⟨⟩⟩
  next =>
    split
    next => exact ⟨h.halt hm, by rintro e ⟨⟩⟩
    next hf =>
      have hunit := hsettled.replay host h.misuse ⟨.ofEntries m.recorded, s⟩
      rw [replay_unitDialogue] at hunit
      split
      next position tape hr =>
        rw [hr] at hunit
        exact ⟨h.settle hunit, by rintro e ⟨⟩⟩
      next call tape hr => exact ⟨h.settle hm, by rintro e ⟨⟩⟩
      next e tape hr =>
        rw [hr] at hunit
        exact ⟨h.halt hm, by rintro e' ⟨⟩; exact hunit⟩

theorem runBounded (budget : Nat) (hm : P (m.frames, m.store)) (s : σ) :
    P ((m.runBounded host budget s).2.1.frames, (m.runBounded host budget s).2.1.store) ∧
      ∀ e, (m.runBounded host budget s).1 = .error e → Q e := by
  induction budget generalizing m s with
  | zero => exact ⟨hm, by rintro e ⟨⟩⟩
  | succ budget ih =>
    have hstep := h.step host hm s
    unfold Machine.runBounded
    split
    next m' s' heq =>
      rw [heq] at hstep
      exact ih hstep.1 s'
    next => exact hstep

theorem called {d e : Driver σ} {c : DriverCall} (hcall : d.Called host c e)
    (hm : P (d.machine.frames, d.machine.store)) (hd : ∀ x, d.ended = some (.error x) → Q x) :
    P (e.machine.frames, e.machine.store) ∧ ∀ x, e.ended = some (.error x) → Q x := by
  have heard (r : Except Error Step × Machine × Watched σ) (hr : P (r.2.1.frames, r.2.1.store))
      (herr : ∀ x, r.1 = .error x → Q x) : P ((d.hear r).machine.frames, (d.hear r).machine.store) ∧
        ∀ x, (d.hear r).ended = some (.error x) → Q x := by
    rcases r with ⟨e | _ | _ | _ | _, m, w⟩
    · refine ⟨hr, fun x hx => ?_⟩
      cases hended : d.ended <;> simp_all [Driver.hear]
    all_goals
      refine ⟨hr, fun x hx => hd x ?_⟩
      cases hended : d.ended <;> simp_all [Driver.hear]
  cases hcall with
  | step =>
    have hstep := h.step host.watched hm d.world
    exact heard _ hstep.1 hstep.2
  | run hruns =>
    obtain ⟨-, budget, rfl⟩ := Machine.runs_iff.1 hruns
    have hrun := h.runBounded host.watched budget hm d.world
    exact heard _ hrun.1 hrun.2
  | runBounded budget =>
    have hrun := h.runBounded host.watched budget hm d.world
    exact heard _ hrun.1 hrun.2
  | resolve v =>
    unfold Driver.deliver Machine.resolve?
    cases d.machine.status <;> exact ⟨hm, hd⟩

theorem driven {calls : List DriverCall} {d e : Driver σ} (hm : P (d.machine.frames, d.machine.store))
    (hd : ∀ x, d.ended = some (.error x) → Q x) (hdriven : Driver.Driven host calls d e) :
    P (e.machine.frames, e.machine.store) ∧ ∀ x, e.ended = some (.error x) → Q x := by
  induction hdriven with
  | nil he => exact he ▸ ⟨hm, hd⟩
  | cons call _ ih =>
    have hcalled := h.called host call hm hd
    exact ih hcalled.1 hcalled.2

end Abides

end ScopeBlocks.Script
