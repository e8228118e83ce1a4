import ScopeBlocks.Proofs.Script.Reference

/-! Views of hosts. A host that acts on what is seen of another one just as that one acts itself cannot be
told from it by a script: a machine takes the same units on both. -/
namespace ScopeBlocks.Script

variable {σ τ α : Type}

/-- What is seen of the state of a host is the state of a second one, which acts on it alike. -/
structure Sees (host : Host σ) (second : Host τ) (view : σ → τ) : Prop where
  print : ∀ text s, second.print text (view s) = view (host.print text s)
  prompt : ∀ message numeric s, second.prompt message numeric (view s) =
    ((host.prompt message numeric s).1, view (host.prompt message numeric s).2)
  mark : ∀ id s, second.mark id (view s) = view (host.mark id s)

def Tape.seen (view : σ → τ) (tape : Tape σ) : Tape τ := ⟨tape.journal, view tape.host⟩

def Watched.seen (view : σ → τ) (w : Watched σ) : Watched τ := ⟨view w.host, w.trace⟩

def Effect.marked? : Effect → Option String
  | .mark id => some id
  | _ => none

def Watched.marks (w : Watched σ) : List String := w.trace.filterMap Effect.marked?

def Watched.since (before : List Effect) (w : Watched σ) : Watched σ :=
  { w with trace := before ++ w.trace }

theorem Watched.since_trace (w : Watched σ) : Watched.since w.trace ⟨w.host, []⟩ = w := by
  simp only [since, List.append_nil]

theorem Watched.marks_since (w v : Watched σ) :
    (v.since w.trace).marks = w.marks ++ v.marks := List.filterMap_append

/-- Watching changes nothing. -/
theorem sees_host (host : Host σ) : Sees host.watched host Watched.host where
  print _ _ := rfl
  prompt _ _ _ := rfl
  mark _ _ := rfl

theorem sees_since (host : Host σ) (before : List Effect) :
    Sees host.watched host.watched (Watched.since before) where
  print _ _ := by simp only [Host.watched, Watched.since, Watched.note, List.append_assoc]
  prompt _ _ _ := by simp only [Host.watched, Watched.since, Watched.note, List.append_assoc]
  mark _ _ := by simp only [Host.watched, Watched.since, Watched.note, List.append_assoc]

namespace Sees

variable {host : Host σ} {second : Host τ} {view : σ → τ}

theorem watched (h : Sees host second view) :
    Sees host.watched second.watched (Watched.seen view) where
  print text w := by simp only [Host.watched, Watched.seen, Watched.note, h.print]
  prompt message numeric w := by simp only [Host.watched, Watched.seen, Watched.note, h.prompt]
  mark id w := by simp only [Host.watched, Watched.seen, Watched.note, h.mark]

/-- An evaluation that comes to the same on both hosts. -/
def Alike (view : σ → τ) (x : Evaluation σ α) (y : Evaluation τ α) : Prop :=
  ∀ tape, y (tape.seen view) = ((x tape).1, (x tape).2.seen view)

theorem Alike.onHost {f : σ → α × σ} {g : τ → α × τ} (h : ∀ s, g (view s) = ((f s).1, view (f s).2)) :
    Alike view (.onHost f) (.onHost g) := by
  intro tape
  simp only [Evaluation.onHost, Tape.seen, h]

variable (h : Sees host second view)

include h

theorem perform (p : Primitive) (args : List Value) :
    Alike view (p.perform host args) (p.perform second args) := by
  simp only [Primitive.perform]
  split
  · split
    · exact .onHost fun s => by rw [h.print]
    · exact .onHost fun s => by rw [h.print]
    · exact fun _ => rfl
  · cases promptKind args with
    | ok kind => exact .onHost fun s => by simp only [h.prompt]
    | error cause => exact fun _ => rfl
  · split
    · exact .onHost fun s => by rw [h.mark]
    · exact fun _ => rfl
  · cases AsyncCall.ofArguments _ args with
    | ok call => exact fun _ => rfl
    | error cause => exact fun _ => rfl

theorem call (p : Primitive) (args : List Value) :
    Alike view (p.call host args) (p.call second args) := by
  intro tape
  obtain ⟨⟨taken, ahead⟩, s⟩ := tape
  cases ahead with
  | cons v ahead => rfl
  | nil =>
    have hp := h.perform p args ⟨⟨taken, []⟩, s⟩
    simp only [Primitive.call, Evaluation.recordedOr, Tape.seen, Evaluation.bind_apply] at hp ⊢
    rw [hp]
    rcases p.perform host args _ with ⟨_ | v, tape⟩ <;> rfl

theorem replay (x : Dialogue α) : Alike view (x.replay host) (x.replay second) := by
  induction x with
  | value a => exact fun _ => rfl
  | fail e => exact fun _ => rfl
  | ask p args next ih =>
    intro tape
    simp only [Dialogue.replay, Evaluation.bind_apply, h.call p args tape]
    rcases p.call host args tape with ⟨_ | v, tape⟩
    · rfl
    · exact ih v tape

theorem runUnit (store : Store) (frames : List Frame) :
    Alike view (runUnit host store frames) (runUnit second store frames) := by
  rw [← replay_unitDialogue, ← replay_unitDialogue]
  exact h.replay _

theorem step (m : Machine) (s : σ) : m.step second (view s) =
    ((m.step host s).1, (m.step host s).2.1, view (m.step host s).2.2) := by
  have hunit := h.runUnit m.store (settle m.frames) ⟨.ofEntries m.recorded, s⟩
  simp only [Tape.seen] at hunit
  rw [Machine.step, Machine.step]
  split
  · rfl
  · rfl
  · split
    · rfl
    · rw [hunit]
      rcases Script.runUnit host m.store _ _ with ⟨(_ | _) | position, tape⟩ <;> rfl

theorem runBounded (budget : Nat) (m : Machine) (s : σ) : m.runBounded second budget (view s) =
    ((m.runBounded host budget s).1, (m.runBounded host budget s).2.1,
      view (m.runBounded host budget s).2.2) := by
  induction budget generalizing m s with
  | zero => rfl
  | succ budget ih =>
    simp only [Machine.runBounded]
    rw [h.step]
    rcases m.step host s with ⟨_ | (_ | _ | _ | _), m', s'⟩
    case ok.continue => exact ih m' s'
    all_goals rfl

end Sees

end ScopeBlocks.Script
