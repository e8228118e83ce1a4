import ScopeBlocks.Proofs.Script.Dialogue

/-! Runs that never suspend. Every unit is evaluated once from start to end, and a call that is answered
from outside takes the next of the values that will be delivered at the very place where it is made. What
a run does is kept in one trace: printed texts, prompts, marks and the calls that it issues. -/
namespace ScopeBlocks.Script

inductive Effect where
  | print (text : String)
  | prompt (message : String) (numeric : Bool)
  | mark (id : String)
  | issue (call : AsyncCall)
  deriving DecidableEq, Repr

/-- A host and the trace of what was done so far. -/
structure Watched (σ : Type) where
  host : σ
  trace : List Effect

variable {σ α β : Type}

def Watched.note (w : Watched σ) (e : Effect) : Watched σ := { w with trace := w.trace ++ [e] }

def Host.watched (host : Host σ) : Host (Watched σ) where
  print text w := Watched.note ⟨host.print text w.host, w.trace⟩ (.print text)
  prompt message numeric w :=
    let (answer, s) := host.prompt message numeric w.host
    (answer, Watched.note ⟨s, w.trace⟩ (.prompt message numeric))
  mark id w := Watched.note ⟨host.mark id w.host, w.trace⟩ (.mark id)

/-- How a dialogue ends that takes its answers from a list; the list may be too short for it. -/
inductive Ending (α : Type) where
  | value (a : α)
  | failed (error : Error)
  | starved (call : AsyncCall)

namespace Dialogue

/-- A dialogue carried through at once, with the values that answer its calls from outside. -/
def live (host : Host σ) : Dialogue α → Watched σ → List Value → Ending α × Watched σ × List Value
  | .value a, w, answers => (.value a, w, answers)
  | .fail e, w, answers => (.failed e, w, answers)
  | .ask p args next, w, answers =>
    match p.perform host.watched args ⟨.ofEntries [], w⟩, answers with
    | (.ok v, tape), answers => (next v).live host tape.host answers
    | (.error (.suspend call), tape), v :: answers =>
      (next v).live host (tape.host.note (.issue call)) answers
    | (.error (.suspend call), tape), [] => (.starved call, tape.host.note (.issue call), [])
    | (.error (.fail e), tape), answers => (.failed e, tape.host, answers)

end Dialogue

/-- A run that never suspends, between two units. -/
structure Reference (σ : Type) where
  frames : List Frame
  store : Store
  units : Nat
  world : Watched σ
  answers : List Value

/-- How far a reference run has come. -/
inductive Verdict where
  | running
  | done
  | failed (error : Error)
  | starved (call : AsyncCall)
  deriving DecidableEq, Repr

namespace Reference

def start (program : Program) (s : σ) (answers : List Value) : Reference σ :=
  ⟨[.block program], .empty, 0, ⟨s, []⟩, answers⟩

def endUnit (r : Reference σ) (position : Position) (w : Watched σ) (answers : List Value) :
    Reference σ :=
  ⟨settle position.1, position.2, r.units + 1, w, answers⟩

def step (host : Host σ) (r : Reference σ) : Verdict × Reference σ :=
  match settle r.frames with
  | [] => (.done, r)
  | frames =>
    match (unitDialogue r.store frames).live host r.world r.answers with
    | (.value position, w, answers) => (.running, r.endUnit position w answers)
    | (.failed e, w, answers) => (.failed e, { r with world := w, answers })
    | (.starved call, w, answers) => (.starved call, { r with world := w, answers })

/-- As many units as given, fewer where the run ends or lacks an answer. -/
def run (host : Host σ) : Nat → Reference σ → Verdict × Reference σ
  | 0, r => (.running, r)
  | n + 1, r =>
    match r.step host with
    | (.running, r) => run host n r
    | ended => ended

theorem run_succ_of_running {host : Host σ} {n : Nat} {r q : Reference σ}
    (h : r.run host n = (.running, q)) : r.run host (n + 1) = q.step host := by
  induction n generalizing r with
  | zero =>
    cases h
    simp only [run]
    rcases q.step host with ⟨v, q'⟩
    cases v <;> rfl
  | succ n ih =>
    rw [run] at h ⊢
    rcases hs : r.step host with ⟨v, q'⟩
    rw [hs] at h
    cases v with
    | running => exact ih h
    | done | failed e | starved call => cases h

theorem run_add_of_ended {host : Host σ} {n : Nat} {r q : Reference σ} {v : Verdict}
    (h : r.run host n = (v, q)) (hv : v ≠ .running) (k : Nat) : r.run host (n + k) = (v, q) := by
  induction n generalizing r with
  | zero =>
    cases h
    exact absurd rfl hv
  | succ n ih =>
    rw [Nat.add_right_comm, run]
    rw [run] at h
    rcases hs : r.step host with ⟨v', q'⟩
    rw [hs] at h
    cases v' with
    | running => exact ih h
    | done | failed e | starved call => exact h

end Reference

/-- What a call comes to: one effect on the host, a misuse, or a call that is answered from outside. -/
inductive Performed (host : Host σ) : Evaluation σ Value → Prop where
  | print (text : String) : Performed host (.onHost fun s => (.null, host.print text s))
  | prompt (message : String) (numeric : Bool) : Performed host (.onHost fun s =>
      let (answer, s) := host.prompt message numeric s
      (answerValue numeric answer, s))
  | mark (id : String) : Performed host (.onHost fun s => (.null, host.mark id s))
  | fail (e : Error) : Performed host (.fail e)
  | suspend (call : AsyncCall) : Performed host (.suspend call)

theorem Primitive.performed (host : Host σ) (p : Primitive) (args : List Value) :
    Performed host (p.perform host args) := by
  unfold perform
  split
  · split
    · exact .print ""
    · exact .print _
    · exact .fail _
  · cases promptKind args with
    | ok kind => exact .prompt kind.1.text kind.2
    | error cause => exact .fail _
  · split
    · exact .mark _
    · exact .fail _
  · cases AsyncCall.ofArguments p args with
    | ok call => exact .suspend call
    | error cause => exact .fail _

namespace Dialogue

variable {host : Host σ} {p : Primitive} {args : List Value} {next : Value → Dialogue α}
  {w : Watched σ} {answers : List Value}

theorem live_ask_of_onHost {f : Watched σ → Value × Watched σ}
    (h : p.perform host.watched args = .onHost f) :
    (ask p args next).live host w answers = (next (f w).1).live host (f w).2 answers := by
  conv => lhs; unfold live
  rw [h]
  rfl

theorem live_ask_of_fail {e : Error} (h : p.perform host.watched args = .fail e) :
    (ask p args next).live host w answers = (.failed e, w, answers) := by
  conv => lhs; unfold live
  rw [h]
  rfl

theorem live_ask_of_suspend {call : AsyncCall} (h : p.perform host.watched args = .suspend call)
    (v : Value) :
    (ask p args next).live host w (v :: answers) =
      (next v).live host (w.note (.issue call)) answers := by
  conv => lhs; unfold live
  rw [h]
  rfl

theorem live_ask_of_suspend_nil {call : AsyncCall}
    (h : p.perform host.watched args = .suspend call) :
    (ask p args next).live host w [] = (.starved call, w.note (.issue call), []) := by
  conv => lhs; unfold live
  rw [h]
  rfl

theorem trace_prefix_live (x : Dialogue α) (w : Watched σ) (answers : List Value) :
    w.trace <+: (x.live host w answers).2.1.trace := by
  induction x generalizing w answers with
  | value a => exact List.prefix_rfl
  | fail e => exact List.prefix_rfl
  | ask p args next ih =>
    have noted (e : Effect) (s : σ) : w.trace <+: (Watched.note ⟨s, w.trace⟩ e).trace :=
      List.prefix_append _ _
    have hp := p.performed host.watched args
    generalize hx : p.perform host.watched args = x at hp
    cases hp with
    | print text | prompt message numeric | mark id =>
      rw [live_ask_of_onHost hx]
      exact (noted _ _).trans (ih _ _ answers)
    | fail e =>
      simp only [live_ask_of_fail hx, List.prefix_rfl]
    | suspend call =>
      cases answers with
      | nil =>
        rw [live_ask_of_suspend_nil hx]
        exact noted _ w.host
      | cons v answers =>
        rw [live_ask_of_suspend hx]
        exact (noted _ w.host).trans (ih v _ answers)

end Dialogue

namespace Reference

variable {host : Host σ}

theorem step_of_empty {r : Reference σ} (hf : settle r.frames = []) : r.step host = (.done, r) := by
  unfold step
  rw [hf]

theorem step_of_live {frames : List Frame} {store : Store} {units : Nat} {w : Watched σ}
    {answers : List Value} (hf : settle frames ≠ []) :
    step host ⟨frames, store, units, w, answers⟩ =
      match (unitDialogue store (settle frames)).live host w answers with
      | (.value position, w, answers) =>
        (.running, ⟨settle position.1, position.2, units + 1, w, answers⟩)
      | (.failed e, w, answers) => (.failed e, ⟨frames, store, units, w, answers⟩)
      | (.starved call, w, answers) => (.starved call, ⟨frames, store, units, w, answers⟩) := by
  unfold step
  split
  · exact absurd ‹_› hf
  · rfl

theorem step_world (r : Reference σ) :
    (r.step host).2.world =
      ((unitDialogue r.store (settle r.frames)).live host r.world r.answers).2.1 := by
  unfold step
  split
  · rename_i h
    rw [h]
    rfl
  · split <;> simp_all [endUnit]

end Reference

end ScopeBlocks.Script
