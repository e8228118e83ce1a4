import ScopeBlocks.Proofs.Number.Written
import ScopeBlocks.Proofs.Script.Atomicity
import ScopeBlocks.Proofs.Script.Suspension

/-! Calls with meaningful numbers. A call is checked when it is made, but not when a recorded result stands for
it. What is invariant is that the recorded results were given to calls that had passed the check: a unit that
is done again comes to the same calls with the same arguments. -/
namespace ScopeBlocks.Script

def AsyncCall.numbers : AsyncCall → List Number
  | .wait seconds => [seconds]
  | .device (.moveStage _ _ amount) => [amount]
  | .device (.moveStage3d _ x y z) => [x, y, z]
  | .device _ => []

/-- All numbers of a call are finite, and a wait is not too long. -/
structure AsyncCall.Meaningful (call : AsyncCall) : Prop where
  finite : ∀ x ∈ call.numbers, x.isFinite = true
  wait : ∀ seconds, call = .wait seconds → 0 ≤ seconds.value ∧ seconds.value ≤ maxWaitSeconds

namespace Primitive

/-- The places of the arguments that have to be numbers. -/
def numericPlaces : Primitive → List Nat
  | waitSeconds => [0]
  | moveStage => [2]
  | moveStage3d => [1, 2, 3]
  | _ => []

/-- A value that is no finite number, or not the length of a wait. -/
def Rejects (p : Primitive) (v : Value) : Prop :=
  ∀ x, v = .number x → x.isFinite = true →
    p = waitSeconds ∧ ¬(0 ≤ x.value ∧ x.value ≤ maxWaitSeconds)

def Meaningless (p : Primitive) (args : List Value) : Prop :=
  ∃ i ∈ p.numericPlaces, ∃ v, args[i]? = some v ∧ p.Rejects v

end Primitive

/-! The check of arguments. -/

namespace AsyncCall

variable {v : Value} {x : Number}

theorem finite_ok (h : finite v = .ok x) : v = .number x ∧ x.isFinite = true := by
  unfold finite at h
  split at h
  next y =>
    split at h
    next hy =>
      cases h
      exact ⟨rfl, hy⟩
    next => cases h
  next => cases h

theorem seconds_ok (h : seconds v = .ok x) :
    v = .number x ∧ x.isFinite = true ∧ 0 ≤ x.value ∧ x.value ≤ maxWaitSeconds := by
  unfold seconds at h
  obtain ⟨y, hv, hrange⟩ := bind_eq_ok h
  obtain ⟨rfl, hy⟩ := finite_ok hv
  have hlongest : maxWaitSeconds ≤ Number.mantissaLimit := by decide
  have hwhole : (Number.ofNat maxWaitSeconds).isFinite = true := by
    rw [Number.ofNat_whole hlongest]
    rfl
  split at hrange
  next hlimits =>
    cases hrange
    rw [Bool.and_eq_true, Number.le_iff_value_le rfl hy, Number.le_iff_value_le hy hwhole,
      Number.value_zero, Number.value_ofNat hlongest] at hlimits
    exact ⟨rfl, hy, hlimits⟩
  next => cases hrange

end AsyncCall

namespace Primitive

variable {p : Primitive} {args : List Value} {call : AsyncCall}

theorem ofArguments_numbers (h : AsyncCall.ofArguments p args = .ok call) : call.Meaningful ∧
    p.numericPlaces.map (args[·]?) = call.numbers.map (some ∘ Value.number) ∧
      (p = waitSeconds → ∃ seconds, call = .wait seconds) := by
  have numberless {c : DeviceCall} (hc : (AsyncCall.device c).numbers = []) :
      (AsyncCall.device c).Meaningful :=
    ⟨by rw [hc]; rintro x ⟨⟩, by rintro _ ⟨⟩⟩
  unfold AsyncCall.ofArguments at h
  split at h
  next v =>
    obtain ⟨x, hx, h⟩ := bind_eq_ok h
    cases h
    obtain ⟨rfl, hfinite, hrange⟩ := AsyncCall.seconds_ok hx
    refine ⟨⟨by simpa [AsyncCall.numbers] using hfinite, ?_⟩, rfl, fun _ => ⟨x, rfl⟩⟩
    rintro _ ⟨⟩
    exact hrange
  next =>
    cases h
    exact ⟨numberless rfl, rfl, by rintro ⟨⟩⟩
  next v =>
    obtain ⟨axis, -, h⟩ := bind_eq_ok h
    cases h
    exact ⟨numberless rfl, rfl, by rintro ⟨⟩⟩
  next v =>
    obtain ⟨focus, -, h⟩ := bind_eq_ok h
    cases h
    exact ⟨numberless rfl, rfl, by rintro ⟨⟩⟩
  next =>
    cases h
    exact ⟨numberless rfl, rfl, by rintro ⟨⟩⟩
  next a m d =>
    obtain ⟨axis, -, h⟩ := bind_eq_ok h
    obtain ⟨mode, -, h⟩ := bind_eq_ok h
    obtain ⟨amount, hamount, h⟩ := bind_eq_ok h
    cases h
    obtain ⟨rfl, hfinite⟩ := AsyncCall.finite_ok hamount
    exact ⟨⟨by simpa [AsyncCall.numbers] using hfinite, by rintro _ ⟨⟩⟩, rfl, by rintro ⟨⟩⟩
  next m dx dy dz =>
    obtain ⟨mode, -, h⟩ := bind_eq_ok h
    obtain ⟨x, hx, h⟩ := bind_eq_ok h
    obtain ⟨y, hy, h⟩ := bind_eq_ok h
    obtain ⟨z, hz, h⟩ := bind_eq_ok h
    cases h
    obtain ⟨rfl, hfinite⟩ := AsyncCall.finite_ok hx
    obtain ⟨rfl, hfinite'⟩ := AsyncCall.finite_ok hy
    obtain ⟨rfl, hfinite''⟩ := AsyncCall.finite_ok hz
    refine ⟨⟨?_, by rintro _ ⟨⟩⟩, rfl, by rintro ⟨⟩⟩
    simp [AsyncCall.numbers, hfinite, hfinite', hfinite'']
  all_goals cases h

theorem not_meaningless (h : AsyncCall.ofArguments p args = .ok call) : ¬p.Meaningless args := by
  obtain ⟨hmeaningful, hplaces, hwait⟩ := ofArguments_numbers h
  rintro ⟨i, hi, v, hv, hrejects⟩
  have hnumber : some v ∈ call.numbers.map (some ∘ Value.number) := by
    rw [← hplaces, ← hv]
    exact List.mem_map_of_mem hi
  obtain ⟨x, hx, hvx⟩ := List.mem_map.1 hnumber
  cases hvx
  obtain ⟨hp, hrange⟩ := hrejects x rfl (hmeaningful.finite x hx)
  obtain ⟨seconds, rfl⟩ := hwait hp
  obtain rfl := List.mem_singleton.1 hx
  exact hrange (hmeaningful.wait x rfl)

theorem Meaningless.isAsync (h : p.Meaningless args) : p.isAsync = true := by
  obtain ⟨i, hi, -⟩ := h
  cases p <;> first | rfl | cases hi

theorem Meaningless.refused (h : p.Meaningless args) :
    ∃ cause, AsyncCall.ofArguments p args = .error cause := by
  cases hcall : AsyncCall.ofArguments p args with
  | error cause => exact ⟨cause, rfl⟩
  | ok call => exact absurd h (not_meaningless hcall)

variable {σ : Type} {host : Host σ}

theorem perform_async (h : p.isAsync = true) : p.perform host args =
    match AsyncCall.ofArguments p args with
    | .ok call => .suspend call
    | .error cause => .fail (.misuse p cause) := by
  cases p <;> first | rfl | cases h

variable (host args) in
theorem perform_sync (h : p.isAsync = false) : (∃ f, p.perform host args = .onHost f) ∨
    ∃ cause, p.perform host args = .fail (.misuse p cause) := by
  unfold perform
  split
  · split
    · exact .inl ⟨_, rfl⟩
    · exact .inl ⟨_, rfl⟩
    · exact .inr ⟨_, rfl⟩
  · cases promptKind args with
    | ok => exact .inl ⟨_, rfl⟩
    | error => exact .inr ⟨_, rfl⟩
  · split
    · exact .inl ⟨_, rfl⟩
    · exact .inr ⟨_, rfl⟩
  next hprint hprompt hmark =>
    cases p with
    | print => exact absurd rfl hprint
    | prompt => exact absurd rfl hprompt
    | mark => exact absurd rfl hmark
    | _ => cases h

/-- What a call comes to for which no result is recorded: the host answers it at once, or it passes the check
and is waited for, or it is misused. -/
inductive Made (p : Primitive) (args taken : List Value) (w : σ) :
    Except Interrupt Value × Tape σ → Prop
  | answered (sync : p.isAsync = false) (v : Value) (w' : σ) :
      Made p args taken w (.ok v, ⟨⟨v :: taken, []⟩, w'⟩)
  | waits {call : AsyncCall} (checked : AsyncCall.ofArguments p args = .ok call) :
      Made p args taken w (.error (.suspend call), ⟨⟨taken, []⟩, w⟩)
  | misused {cause : Misuse} (refused : p.isAsync = true → AsyncCall.ofArguments p args = .error cause) :
      Made p args taken w (.error (.fail (.misuse p cause)), ⟨⟨taken, []⟩, w⟩)

variable (host p args) in
theorem made (taken : List Value) (w : σ) :
    p.Made args taken w (p.call host args ⟨⟨taken, []⟩, w⟩) := by
  unfold Primitive.call
  cases hp : p.isAsync with
  | true =>
    rw [perform_async hp]
    cases hcall : AsyncCall.ofArguments p args with
    | ok call => exact .waits hcall
    | error cause => exact .misused fun _ => hcall
  | false =>
    rcases perform_sync args host hp with ⟨f, hf⟩ | ⟨cause, hcause⟩
    · rw [hf]
      exact .answered hp _ _
    · rw [hcause]
      exact .misused fun h => absurd (hp.symm.trans h) Bool.false_ne_true

end Primitive

/-! Dialogues that have been given results. -/

namespace Dialogue

variable {σ α β : Type} {host : Host σ} {x y : Dialogue α} {vs ws : List Value}

/-- Whether the calls of a dialogue that were given results from outside had passed the check. -/
def Vetted : List Value → Dialogue α → Prop
  | v :: vs, .ask p args next =>
    (p.isAsync = true → ∃ call, AsyncCall.ofArguments p args = .ok call) ∧ (next v).Vetted vs
  | _, _ => True

theorem vetted_nil : x.Vetted [] := by
  cases x <;> trivial

theorem Vetted.append (h : x.Vetted vs) (hy : x.after vs = some y) (hvetted : y.Vetted ws) :
    x.Vetted (vs ++ ws) := by
  induction vs generalizing x with
  | nil =>
    cases hy
    exact hvetted
  | cons v vs ih =>
    cases x with
    | value a => cases hy
    | fail e => cases hy
    | ask p args next => exact ⟨h.1, ih h.2 hy⟩

/-- Where a dialogue that is done again waits, its results so far were given to calls that had passed the check,
and so has the call that it waits for. -/
theorem Vetted.suspended {taken : List Value} {w : σ} {call : AsyncCall} {tape : Tape σ} (h : x.Vetted vs)
    (hx : x.replay host ⟨⟨taken, vs⟩, w⟩ = (.error (.suspend call), tape)) :
    ∃ ws p args next, tape.journal.entries = taken.reverse ++ ws ∧ x.Vetted ws ∧
      x.after ws = some (.ask p args next) ∧ AsyncCall.ofArguments p args = .ok call := by
  induction x generalizing vs taken w with
  | value a => cases hx
  | fail e => cases hx
  | ask p args next ih =>
    rw [replay, Evaluation.bind_apply] at hx
    -- a result that is there already goes before those that the rest of the dialogue comes to
    have prepend (v : Value) (hv : p.isAsync = true → ∃ call, AsyncCall.ofArguments p args = .ok call)
        {vs : List Value} {w : σ} (hvetted : (next v).Vetted vs)
        (hrest : (next v).replay host ⟨⟨v :: taken, vs⟩, w⟩ = (.error (.suspend call), tape)) :
        ∃ ws q args' next', tape.journal.entries = taken.reverse ++ ws ∧
          (ask p args next).Vetted ws ∧ (ask p args next).after ws = some (.ask q args' next') ∧
          AsyncCall.ofArguments q args' = .ok call := by
      obtain ⟨ws, q, args', next', hentries, hws, hafter, hcall⟩ := ih v hvetted hrest
      refine ⟨v :: ws, q, args', next', ?_, ⟨hv, hws⟩, hafter, hcall⟩
      rw [hentries, List.reverse_cons, List.append_assoc, List.singleton_append]
    cases vs with
    | cons v vs => exact prepend v h.1 h.2 hx
    | nil =>
      have hmade := p.made args host taken w
      generalize p.call host args ⟨⟨taken, []⟩, w⟩ = r at hmade hx
      cases hmade with
      | answered sync v w' =>
        exact prepend v (fun h => absurd (sync.symm.trans h) Bool.false_ne_true) vetted_nil hx
      | waits checked =>
        cases hx
        exact ⟨[], p, args, next, rfl, vetted_nil, rfl, checked⟩
      | misused => cases hx

/-- The calls that a dialogue comes to, each with the tape as it is there, where those before it have had
results. -/
inductive Meets (host : Host σ) : Dialogue α → Tape σ → Primitive → List Value → Tape σ → Prop
  | here {p : Primitive} {args : List Value} {next : Value → Dialogue α} {tape : Tape σ} :
      Meets host (.ask p args next) tape p args tape
  | later {p q : Primitive} {args args' : List Value} {next : Value → Dialogue α} {v : Value}
      {tape mid tape' : Tape σ} (h : p.call host args tape = (.ok v, mid))
      (rest : Meets host (next v) mid q args' tape') : Meets host (.ask p args next) tape q args' tape'

theorem Meets.misused {p : Primitive} {args : List Value} {cause : Misuse} {tape tape' : Tape σ}
    (h : x.Meets host tape p args tape') (hvetted : x.Vetted tape.journal.ahead) (hp : p.isAsync = true)
    (hcause : AsyncCall.ofArguments p args = .error cause) :
    x.replay host tape = (.error (.fail (.misuse p cause)), tape') := by
  induction h with
  | @here p args next tape =>
    obtain ⟨⟨taken, ahead⟩, w⟩ := tape
    cases ahead with
    | cons v ahead =>
      -- a result that is recorded already was given to a call that had passed the check
      obtain ⟨call, hcall⟩ := hvetted.1 hp
      rw [hcause] at hcall
      cases hcall
    | nil =>
      have hmade := p.made args host taken w
      rw [replay, Evaluation.bind_apply]
      generalize p.call host args ⟨⟨taken, []⟩, w⟩ = r at hmade
      cases hmade with
      | answered sync => exact absurd (sync.symm.trans hp) Bool.false_ne_true
      | waits checked =>
        rw [hcause] at checked
        cases checked
      | misused refused =>
        cases hcause.symm.trans (refused hp)
        rfl
  | @later q p args' args next v tape mid tape' hcall rest ih =>
    rw [replay, Evaluation.bind_apply, hcall]
    refine ih ?_ hp hcause
    obtain ⟨⟨taken, ahead⟩, w⟩ := tape
    cases ahead with
    | cons u ahead =>
      cases hcall
      exact hvetted.2
    | nil =>
      have hmade := q.made args' host taken w
      rw [hcall] at hmade
      cases hmade
      exact vetted_nil

theorem Meets.bind {f : α → Dialogue β} {p : Primitive} {args : List Value} {tape tape' : Tape σ}
    (h : x.Meets host tape p args tape') : (x >>= f).Meets host tape p args tape' := by
  change (x.andThen f).Meets host tape p args tape'
  induction h with
  | here => exact .here
  | later h _ ih => exact .later h ih

theorem Meets.after {f : α → Dialogue β} {a : α} {p : Primitive} {args : List Value} {tape mid tape' : Tape σ}
    (hx : x.replay host tape = (.ok a, mid)) (h : (f a).Meets host mid p args tape') :
    (x >>= f).Meets host tape p args tape' := by
  change (x.andThen f).Meets host tape p args tape'
  induction x generalizing tape with
  | value b =>
    cases hx
    exact h
  | fail e => cases hx
  | ask q args' next ih =>
    rw [replay, Evaluation.bind_apply] at hx
    rcases hcall : q.call host args' tape with ⟨e | v, tape''⟩
    · rw [hcall] at hx
      cases hx
    · rw [hcall] at hx
      exact .later hcall (ih v hx)

end Dialogue

theorem Expr.meets_call {σ : Type} {host : Host σ} {store : Store} {p : Primitive} {es : List Expr}
    {args : List Value} {tape mid : Tape σ} (h : Expr.evalArgs host store es tape = (.ok args, mid)) :
    ((Expr.call p es).dialogue store).Meets host tape p args mid := by
  rw [← Expr.replay_dialogueArgs] at h
  exact .after h .here

/-! Machines. -/

namespace Machine

variable {σ : Type} {host : Host σ} {m m' : Machine} {program : Program}

/-- The recorded results of a machine were given to calls that had passed the check, and so has the call that
it waits for. -/
structure Vetted (m : Machine) : Prop where
  recorded : m.unit.Vetted m.recorded
  awaited : ∀ call, m.status = .awaiting call → ∃ p args next,
    m.unit.after m.recorded = some (.ask p args next) ∧ AsyncCall.ofArguments p args = .ok call

theorem vetted_of_unrecorded (hm : m.recorded = []) (hstatus : ∀ call, m.status ≠ .awaiting call) :
    m.Vetted :=
  ⟨by rw [hm]; exact Dialogue.vetted_nil, fun call h => absurd h (hstatus call)⟩

theorem Vetted.step (h : m.Vetted) (host : Host σ) (s : σ) : (m.step host s).2.1.Vetted := by
  cases hstatus : m.status with
  | finished =>
    rw [step_of_finished host hstatus]
    exact h
  | awaiting call =>
    rw [step_of_awaiting host hstatus]
    exact h
  | ready =>
    by_cases hframes : settle m.frames = []
    · rw [Machine.step, hstatus, hframes]
      refine ⟨?_, by rintro call ⟨⟩⟩
      rw [unit_of_empty rfl]
      cases m.recorded <;> trivial
    · rw [step_of_ready host hstatus hframes]
      split
      next position tape hr =>
        refine vetted_of_unrecorded rfl fun call hcall => ?_
        unfold advance at hcall
        dsimp only at hcall
        split at hcall <;> cases hcall
      next call tape hr =>
        obtain ⟨ws, p, args, next, hentries, hvetted, hafter, hcall⟩ := h.recorded.suspended hr
        rw [List.reverse_nil, List.nil_append] at hentries
        refine ⟨?_, ?_⟩
        · rw [hentries, Machine.unit, settle_settle]
          exact hvetted
        · rintro _ ⟨⟩
          rw [hentries, Machine.unit, settle_settle]
          exact ⟨p, args, next, hafter, hcall⟩
      next => exact vetted_of_unrecorded rfl (by rintro call ⟨⟩)

theorem Vetted.resolve {v : Value} (h : m.Vetted) (hm : m.resolve? v = some m') : m'.Vetted := by
  unfold resolve? at hm
  split at hm
  next call hstatus =>
    cases hm
    obtain ⟨p, args, next, hafter, hcall⟩ := h.awaited call hstatus
    refine ⟨h.recorded.append hafter ⟨fun _ => ⟨call, hcall⟩, Dialogue.vetted_nil⟩, by rintro _ ⟨⟩⟩
  next => cases hm

theorem Reached.vetted (h : Reached program m) : m.Vetted := by
  induction h with
  | start => exact vetted_of_unrecorded rfl (by rintro call ⟨⟩)
  | step host s _ ih => exact ih.step host s
  | resolve _ hm ih => exact ih.resolve hm

theorem Vetted.meaningful (h : m.Vetted) {call : AsyncCall} (hcall : m.status = .awaiting call) :
    call.Meaningful := by
  obtain ⟨p, args, next, -, hchecked⟩ := h.awaited call hcall
  exact (Primitive.ofArguments_numbers hchecked).1

/-- The calls that the unit of a machine comes to when it is done, from recorded results or not. -/
def Meets (host : Host σ) (m : Machine) (s : σ) (p : Primitive) (args : List Value) (tape : Tape σ) :
    Prop :=
  m.status = .ready ∧ m.unit.Meets host ⟨.ofEntries m.recorded, s⟩ p args tape

/-- Numbers without a meaning end the run where they are met. -/
theorem Vetted.misused (h : m.Vetted) {s : σ} {p : Primitive} {args : List Value} {tape : Tape σ}
    (hmeets : m.Meets host s p args tape) (hargs : p.Meaningless args) :
    ∃ cause, m.step host s = (.error (.misuse p cause), m.halt, tape.host) := by
  obtain ⟨hready, hmeets⟩ := hmeets
  obtain ⟨cause, hcause⟩ := hargs.refused
  have hframes : settle m.frames ≠ [] := by
    intro hnil
    rw [Machine.unit_of_empty hnil] at hmeets
    cases hmeets
  refine ⟨cause, ?_⟩
  rw [step_of_ready host hready hframes, hmeets.misused h.recorded hargs.isAsync hcause]

end Machine

end ScopeBlocks.Script
