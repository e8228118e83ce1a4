import ScopeBlocks.Script.Machine

/-! Scripts that mark blocks by statements of their own. A unit of such a script either is a mark, which
neither waits nor fails, or leaves alone whatever a host keeps of its marks. -/
namespace ScopeBlocks.Script

mutual

def Expr.quiet : Expr → Bool
  | .literal _ | .var _ => true
  | .call p args => p != .mark && quietAll args
  | .member object _ => object.quiet
  | .unary _ operand => operand.quiet
  | .binary _ left right => left.quiet && right.quiet

def quietAll : List Expr → Bool
  | [] => true
  | e :: rest => e.quiet && quietAll rest

end

def Expr.isMark : Expr → Bool
  | .call .mark [.literal (.string _)] => true
  | _ => false

def Assignment.quiet (a : Assignment) : Bool := a.value.quiet

def Binding.quiet : Binding → Bool
  | .declare _ init => init.all Expr.quiet
  | .assign a => a.quiet

mutual

/-- Whether every mark in a statement is a statement. -/
def Statement.tidy : Statement → Bool
  | .bind b => b.quiet
  | .eval e => e.isMark || e.quiet
  | .branch branches otherwise => tidyBranches branches && tidyOtherwise otherwise
  | .whileLoop cond body => cond.quiet && tidyAll body
  | .forLoop init cond update body =>
    init.all Binding.quiet && cond.all Expr.quiet && update.all Assignment.quiet && tidyAll body
  | .exitLoop | .nextRound => true

def tidyAll : List Statement → Bool
  | [] => true
  | s :: rest => s.tidy && tidyAll rest

def tidyBranches : List (Expr × List Statement) → Bool
  | [] => true
  | (cond, body) :: rest => cond.quiet && tidyAll body && tidyBranches rest

def tidyOtherwise : Option (List Statement) → Bool
  | none => true
  | some body => tidyAll body

end

def Loop.tidy (l : Loop) : Bool :=
  l.init.all Binding.quiet && l.cond.all Expr.quiet && l.update.all Assignment.quiet && tidyAll l.body

def Frame.tidy : Frame → Bool
  | .block rest => tidyAll rest
  | .loop l _ => l.tidy

/-- Whether all that a machine has still to run is tidy. -/
def Tidy (frames : List Frame) : Prop := ∀ f ∈ frames, f.tidy = true

section

variable {frames rest : List Frame}

theorem Tidy.cons {f : Frame} (hf : f.tidy = true) (h : Tidy frames) : Tidy (f :: frames) :=
  fun _ hg => (List.mem_cons.1 hg).elim (· ▸ hf) (h _)

theorem Tidy.head {f : Frame} (h : Tidy (f :: frames)) : f.tidy = true := h f List.mem_cons_self

theorem Tidy.tail {f : Frame} (h : Tidy (f :: frames)) : Tidy frames := fun g hg =>
  h g (List.mem_cons_of_mem _ hg)

theorem Tidy.settle (h : Tidy frames) : Tidy (settle frames) := by
  induction frames with
  | nil => exact h
  | cons f frames ih =>
    unfold Script.settle
    split
    next heq =>
      cases heq
      exact ih h.tail
    next => exact h

theorem Tidy.afterLoop (h : Tidy frames) (hr : afterLoop? frames = some rest) : Tidy rest := by
  induction frames with
  | nil => cases hr
  | cons f frames ih =>
    cases f with
    | block => exact ih h.tail hr
    | loop =>
      cases hr
      exact h.tail

theorem Tidy.fromLoop (h : Tidy frames) (hr : fromLoop? frames = some rest) : Tidy rest := by
  induction frames with
  | nil => cases hr
  | cons f frames ih =>
    cases f with
    | block => exact ih h.tail hr
    | loop =>
      cases hr
      exact h

end

variable {σ τ α β : Type} {host : Host σ} {view : σ → τ}

/-- What only marks change: printing and prompting leave it alone. -/
structure Unseen (host : Host σ) (view : σ → τ) : Prop where
  print : ∀ text s, view (host.print text s) = view s
  prompt : ∀ message numeric s, view (host.prompt message numeric s).2 = view s

/-- An evaluation that leaves a view of the host alone and has only values of one kind. -/
def Keeps (view : σ → τ) (P : α → Prop) (x : Evaluation σ α) : Prop :=
  ∀ tape, view (x tape).2.host = view tape.host ∧ ∀ a, (x tape).1 = .ok a → P a

namespace Keeps

variable {P : α → Prop} {Q : β → Prop}

theorem pure {a : α} (h : P a) : Keeps view P (Pure.pure a : Evaluation σ α) := fun _ =>
  ⟨rfl, fun _ hb => by cases hb; exact h⟩

theorem bind {x : Evaluation σ α} {f : α → Evaluation σ β} (hx : Keeps view P x)
    (hf : ∀ a, P a → Keeps view Q (f a)) : Keeps view Q (x >>= f) := by
  intro tape
  obtain ⟨hview, hvalue⟩ := hx tape
  rw [Evaluation.bind_apply]
  rcases hr : x tape with ⟨_ | a, tape'⟩
  · rw [hr] at hview
    exact ⟨hview, fun b hb => by cases hb⟩
  · rw [hr] at hview hvalue
    obtain ⟨hview', hvalue'⟩ := hf a (hvalue a rfl) tape'
    exact ⟨hview'.trans hview, hvalue'⟩

theorem fail (e : Error) : Keeps view P (Evaluation.fail e : Evaluation σ α) := fun _ =>
  ⟨rfl, fun _ hb => by cases hb⟩

theorem suspend (call : AsyncCall) : Keeps view P (Evaluation.suspend call : Evaluation σ α) :=
  fun _ => ⟨rfl, fun _ hb => by cases hb⟩

theorem ofFault (r : Except Fault α) :
    Keeps view (fun _ => True) (Evaluation.ofFault r : Evaluation σ α) := by
  cases r with
  | error => exact .fail _
  | ok => exact .pure trivial

theorem onHost {f : σ → α × σ} (h : ∀ s, view (f s).2 = view s) :
    Keeps view (fun _ => True) (Evaluation.onHost f) := fun tape => ⟨h tape.host, fun _ _ => trivial⟩

theorem recordedOr {x : Evaluation σ Value} (h : Keeps view (fun _ => True) x) :
    Keeps view (fun _ => True) (Evaluation.recordedOr x) := by
  intro tape
  unfold Evaluation.recordedOr
  split
  · exact ⟨rfl, fun _ _ => trivial⟩
  · exact h tape

end Keeps

theorem Primitive.keeps_perform (hu : Unseen host view) {p : Primitive} (hp : p ≠ .mark) (args : List Value) :
    Keeps view (fun _ => True) (p.perform host args) := by
  unfold Primitive.perform
  split
  · split
    · exact .onHost fun s => hu.print "" s
    · exact .onHost fun s => hu.print _ s
    · exact .fail _
  · split
    · exact .onHost fun s => hu.prompt _ _ s
    · exact .fail _
  · exact absurd rfl hp
  · split
    · exact .suspend _
    · exact .fail _

theorem Primitive.keeps_call (hu : Unseen host view) {p : Primitive} (hp : p ≠ .mark) (args : List Value) :
    Keeps view (fun _ => True) (p.call host args) := by
  unfold Primitive.call
  refine .recordedOr (.bind (p.keeps_perform hu hp args) fun v _ => ?_)
  exact .bind (P := fun _ => True) (fun tape => ⟨rfl, fun _ _ => trivial⟩) fun _ _ => .pure trivial

mutual

theorem Expr.keeps (hu : Unseen host view) (store : Store) : (e : Expr) → e.quiet = true →
    Keeps view (fun _ => True) (e.eval host store)
  | .literal _, _ => by
    unfold Expr.eval
    exact .pure trivial
  | .var _, _ => by
    unfold Expr.eval
    exact .ofFault _
  | .member object _, h => by
    unfold Expr.quiet at h
    unfold Expr.eval
    exact .bind (object.keeps hu store h) fun _ _ => .ofFault _
  | .unary _ operand, h => by
    unfold Expr.quiet at h
    unfold Expr.eval
    exact .bind (operand.keeps hu store h) fun _ _ => .ofFault _
  | .binary op left right, h => by
    unfold Expr.quiet at h
    obtain ⟨hl, hr⟩ := Bool.and_eq_true_iff.1 h
    have hleft := left.keeps hu store hl
    have hright := right.keeps hu store hr
    cases op with
    | and =>
      unfold Expr.eval
      refine .bind hleft fun v _ => ?_
      split
      · exact .bind hright fun _ _ => .pure trivial
      · exact .pure trivial
    | or =>
      unfold Expr.eval
      refine .bind hleft fun v _ => ?_
      split
      · exact .pure trivial
      · exact .bind hright fun _ _ => .pure trivial
    | add | sub | mul | div | rem | eq | ne | lt | le | gt | ge =>
      unfold Expr.eval
      exact .bind hleft fun _ _ => .bind hright fun _ _ => .ofFault _
  | .call p args, h => by
    unfold Expr.quiet at h
    obtain ⟨hp, hargs⟩ := Bool.and_eq_true_iff.1 h
    unfold Expr.eval
    exact .bind (keeps_evalArgs hu store args hargs) fun vs _ => p.keeps_call hu (by simpa using hp) vs

theorem keeps_evalArgs (hu : Unseen host view) (store : Store) : (args : List Expr) → quietAll args = true →
    Keeps view (fun _ => True) (Expr.evalArgs host store args)
  | [], _ => by
    unfold Expr.evalArgs
    exact .pure trivial
  | e :: rest, h => by
    unfold quietAll at h
    obtain ⟨he, hrest⟩ := Bool.and_eq_true_iff.1 h
    unfold Expr.evalArgs
    exact .bind (e.keeps hu store he) fun _ _ => .bind (keeps_evalArgs hu store rest hrest) fun _ _ => .pure trivial

end

section

variable (hu : Unseen host view) (store : Store)

include hu

theorem Assignment.keeps {a : Assignment} (h : a.quiet = true) :
    Keeps view (fun _ => True) (a.run host store) := by
  have hvalue := a.value.keeps hu store h
  obtain ⟨name, op, value⟩ := a
  unfold Assignment.run
  cases op with
  | set =>
    refine .bind (P := fun _ => True) (.pure trivial) fun _ _ => .bind hvalue fun v _ => ?_
    exact .bind (P := fun _ => True) (.pure trivial) fun _ _ => .ofFault _
  | add | sub =>
    exact .bind (.ofFault _) fun _ _ => .bind hvalue fun _ _ => .bind (.ofFault _) fun _ _ =>
      .ofFault _

theorem Binding.keeps {b : Binding} (h : b.quiet = true) :
    Keeps view (fun _ => True) (b.run host store) := by
  unfold Binding.run
  unfold Binding.quiet at h
  split
  · exact .pure trivial
  · exact .bind (Expr.keeps hu store _ h) fun _ _ => .pure trivial
  · exact Assignment.keeps hu store h

theorem keeps_chooseBranch {otherwise : Option (List Statement)} (ho : tidyOtherwise otherwise = true)
    (branches : List (Expr × List Statement)) (h : tidyBranches branches = true) :
    Keeps view (tidyOtherwise · = true) (chooseBranch host store otherwise branches) := by
  induction branches with
  | nil => exact .pure ho
  | cons b branches ih =>
    obtain ⟨cond, body⟩ := b
    unfold tidyBranches at h
    obtain ⟨h, hrest⟩ := Bool.and_eq_true_iff.1 h
    obtain ⟨hc, hb⟩ := Bool.and_eq_true_iff.1 h
    unfold chooseBranch
    refine .bind (cond.keeps hu store hc) fun v _ => ?_
    split
    · exact .pure hb
    · exact ih hrest

theorem Loop.keeps_test {l : Loop} (h : l.cond.all Expr.quiet = true) :
    Keeps view (fun _ => True) (l.test host store) := by
  unfold Loop.test
  cases hc : l.cond with
  | none => exact .pure trivial
  | some e =>
    rw [hc] at h
    exact .bind (e.keeps hu store h) fun _ _ => .pure trivial

variable {frames : List Frame}

theorem Loop.keeps_run {l : Loop} (phase : LoopPhase) (h : l.tidy = true) (hf : Tidy frames) :
    Keeps view (fun position => Tidy position.1) (l.run host store phase frames) := by
  have hl := h
  unfold Loop.tidy at h
  simp only [Bool.and_eq_true] at h
  obtain ⟨⟨⟨hi, hc⟩, hu'⟩, hb⟩ := h
  unfold Loop.run
  split
  next b _ hinit =>
    rw [hinit] at hi
    exact .bind (Binding.keeps hu store hi) fun _ _ => .pure (.cons hl hf)
  next a hupdate =>
    rw [hupdate] at hu'
    exact .bind (Assignment.keeps hu store hu') fun _ _ => .pure (.cons hl hf)
  next =>
    refine .bind (l.keeps_test hu store hc) fun go _ => ?_
    split
    · exact .pure (.cons hb (.cons hl hf))
    · exact .pure hf

theorem Statement.keeps_run {s : Statement} (h : s.tidy = true) (hf : Tidy frames)
    (hmark : ∀ e, s = .eval e → e.isMark = false) :
    Keeps view (fun position => Tidy position.1) (s.run host store frames) := by
  cases s with
  | bind b =>
    unfold Statement.tidy at h
    exact .bind (b.keeps hu store h) fun _ _ => .pure hf
  | eval e =>
    unfold Statement.tidy at h
    rw [hmark e rfl, Bool.false_or] at h
    exact .bind (e.keeps hu store h) fun _ _ => .pure hf
  | branch branches otherwise =>
    unfold Statement.tidy at h
    obtain ⟨hb, ho⟩ := Bool.and_eq_true_iff.1 h
    refine .bind (keeps_chooseBranch hu store ho branches hb) fun chosen hchosen => ?_
    cases chosen with
    | none => exact .pure hf
    | some body => exact .pure (.cons hchosen hf)
  | whileLoop cond body =>
    unfold Statement.tidy at h
    exact Loop.keeps_run hu store .test (by simpa [Loop.tidy] using h) hf
  | forLoop init cond update body =>
    unfold Statement.tidy at h
    exact Loop.keeps_run hu store .init h hf
  | exitLoop =>
    unfold Statement.run
    dsimp only
    split
    next hr => exact .pure (hf.afterLoop hr)
    next => exact .fail _
  | nextRound =>
    unfold Statement.run
    dsimp only
    split
    next hr => exact .pure (hf.fromLoop hr)
    next => exact .fail _

end

/-- What a unit of a tidy script does to a view: it may mark a block, and then has a result. -/
def Marks (host : Host σ) (view : σ → τ) (before : σ) (r : Except Interrupt Position × Tape σ) : Prop :=
  match r.1 with
  | .ok position => Tidy position.1 ∧
      (view r.2.host = view before ∨ ∃ id s, view r.2.host = view (host.mark id s))
  | .error _ => view r.2.host = view before

theorem Keeps.marks {x : Evaluation σ Position} (h : Keeps view (fun p => Tidy p.1) x) (tape : Tape σ) :
    Marks host view tape.host (x tape) := by
  obtain ⟨hview, hvalue⟩ := h tape
  unfold Marks
  split
  next position hr => exact ⟨hvalue position hr, .inl hview⟩
  next => exact hview

theorem Statement.run_marks (hu : Unseen host view) (store : Store) {frames : List Frame} {s : Statement}
    (h : s.tidy = true) (hf : Tidy frames) (tape : Tape σ) :
    Marks host view tape.host (s.run host store frames tape) := by
  by_cases hmark : ∃ e, s = .eval e ∧ e.isMark = true
  · obtain ⟨e, rfl, he⟩ := hmark
    unfold Expr.isMark at he
    split at he
    next id =>
      obtain ⟨⟨taken, ahead⟩, s⟩ := tape
      cases ahead with
      | nil => exact ⟨hf, .inr ⟨id, s, rfl⟩⟩
      | cons v ahead => exact ⟨hf, .inl rfl⟩
    next => cases he
  · refine (Statement.keeps_run hu store h hf fun e he => ?_).marks tape
    simpa using fun hm => hmark ⟨e, he, hm⟩

theorem runUnit_marks (hu : Unseen host view) (store : Store) {frames : List Frame} (h : Tidy frames)
    (tape : Tape σ) : Marks host view tape.host (runUnit host store frames tape) := by
  unfold runUnit
  split
  next s rest frames =>
    have hhead := h.head
    unfold Frame.tidy tidyAll at hhead
    obtain ⟨hs, hrest⟩ := Bool.and_eq_true_iff.1 hhead
    exact Statement.run_marks hu store hs (.cons (f := .block rest) hrest h.tail) tape
  next l phase frames => exact (Loop.keeps_run hu store phase h.head h.tail).marks tape
  next => exact ⟨h.settle, .inl rfl⟩

namespace Machine

/-- What a step of a tidy machine does to a view. -/
theorem step_marks (hu : Unseen host view) {m : Machine} (h : Tidy m.frames) (s : σ) :
    Tidy (m.step host s).2.1.frames ∧ match (m.step host s).1 with
      | .ok .continue => view (m.step host s).2.2 = view s ∨
          ∃ id t, view (m.step host s).2.2 = view (host.mark id t)
      | .ok (.suspend _) => view (m.step host s).2.2 = view s
      | _ => True := by
  have hsettled := h.settle
  unfold step
  split
  next => exact ⟨h, trivial⟩
  next => exact ⟨h, trivial⟩
  next =>
    split
    next => exact ⟨fun f hf => absurd hf List.not_mem_nil, trivial⟩
    next =>
      have hunit := runUnit_marks hu m.store hsettled ⟨.ofEntries m.recorded, s⟩
      split
      next position tape heq =>
        rw [heq] at hunit
        refine ⟨hunit.1.settle, ?_⟩
        dsimp only
        split
        next => exact hunit.2
        next hr => split at hr <;> cases hr
        next => trivial
      next call tape heq =>
        rw [heq] at hunit
        exact ⟨hsettled, hunit⟩
      next e tape heq => exact ⟨fun f hf => absurd hf List.not_mem_nil, trivial⟩

theorem runBounded_tidy (hu : Unseen host view) (budget : Nat) {m : Machine} (h : Tidy m.frames)
    (s : σ) : Tidy (m.runBounded host budget s).2.1.frames := by
  induction budget generalizing m s with
  | zero => exact h
  | succ budget ih =>
    have hstep := (step_marks hu h s).1
    unfold runBounded
    split
    next m' s' heq =>
      rw [heq] at hstep
      exact ih hstep s'
    next => exact hstep

end Machine

end ScopeBlocks.Script
