import ScopeBlocks.Proofs.Script.Frames

/-! The walk along a program in units: each of them is one step of the reference run, and the pieces that
are done are those at which the run stands. -/
namespace ScopeBlocks.Script

variable {σ : Type} {host : Host σ}

namespace Reference

def pieces (host : Host σ) : Nat → Reference σ → List Piece
  | 0, _ => []
  | n + 1, r =>
    match r.step host with
    | (.running, q) => (pieceAt? (settle r.frames)).toList ++ pieces host n q
    | _ => []

def walk (host : Host σ) (r : Reference σ) (units : Nat) (done : List Piece) : Completion × Walk σ :=
  goOn host r.frames ⟨r.store, r.world, r.answers, units, done⟩

variable {r q p : Reference σ} {n : Nat}

theorem pieceAt?_settle {frames : List Frame} (h : settle frames ≠ []) :
    ∃ piece, pieceAt? (settle frames) = some piece := by
  induction frames with
  | nil => exact absurd rfl h
  | cons frame frames ih =>
    match frame with
    | .block [] => exact ih h
    | .block (s :: rest) => exact ⟨_, rfl⟩
    | .loop l phase => exact ⟨_, rfl⟩

theorem walk_of_empty (h : settle r.frames = []) (units : Nat) (done : List Piece) :
    r.walk host units done = (.normal, ⟨r.store, r.world, r.answers, units, done⟩) := by
  rw [walk, ← goOn_settle, h, goOn_nil]

theorem walk_zero (h : settle r.frames ≠ []) (done : List Piece) :
    r.walk host 0 done = (.cut, ⟨r.store, r.world, r.answers, 0, done⟩) := by
  obtain ⟨piece, hp⟩ := pieceAt?_settle h
  rw [walk, ← goOn_settle, goOn_unit (settle_settle _) hp, Behaviour.unit_of_left rfl]

/-- One more unit of the walk is one step of the reference run. -/
theorem walk_succ (h : settle r.frames ≠ []) (units : Nat) (done : List Piece) :
    r.walk host (units + 1) done =
      match r.step host with
      | (.running, q) => q.walk host units (done ++ (pieceAt? (settle r.frames)).toList)
      | (.done, q) => (.normal, ⟨q.store, q.world, q.answers, units + 1, done⟩)
      | (.failed e, q) => (.failed e, ⟨q.store, q.world, q.answers, units + 1, done⟩)
      | (.starved call, q) => (.starved call, ⟨q.store, q.world, q.answers, units + 1, done⟩) := by
  obtain ⟨piece, hp⟩ := pieceAt?_settle h
  obtain ⟨frames, store, n, world, answers⟩ := r
  rw [walk, ← goOn_settle, goOn_unit (settle_settle _) hp, hp, step_of_live h, Behaviour.unit]
  rcases (unitDialogue store (settle frames)).live host world answers with
    ⟨position | e | call, world, answers⟩
  · exact (goOn_settle _ _).symm
  · rfl
  · rfl

theorem walk_more (r : Reference σ) (units : Nat) (done : List Piece)
    (h : (r.walk host units done).1 ≠ .cut) : r.walk host (units + 1) done =
      ((r.walk host units done).1,
        { (r.walk host units done).2 with left := (r.walk host units done).2.left + 1 }) := by
  induction units generalizing r done with
  | zero =>
    by_cases hf : settle r.frames = []
    · rw [walk_of_empty hf, walk_of_empty hf]
    · rw [walk_zero hf] at h
      exact absurd rfl h
  | succ units ih =>
    by_cases hf : settle r.frames = []
    · rw [walk_of_empty hf, walk_of_empty hf]
    · rw [walk_succ hf] at h ⊢
      rw [walk_succ hf units]
      rcases hs : r.step host with ⟨v, q⟩
      rw [hs] at h
      cases v with
      | running => exact ih q _ h
      | done | failed e | starved call => rfl

theorem walk_stays (r : Reference σ) (done : List Piece) :
    (r.walk host 0 done).2 = ⟨r.store, r.world, r.answers, 0, done⟩ := by
  by_cases h : settle r.frames = []
  · rw [walk_of_empty h]
  · rw [walk_zero h]

theorem pieces_of_step (h : r.step host = (.running, q)) (n : Nat) :
    r.pieces host (n + 1) = (pieceAt? (settle r.frames)).toList ++ q.pieces host n := by
  rw [pieces, h]

theorem frames_of_step (h : r.step host = (.running, q)) : settle r.frames ≠ [] := by
  intro hf
  rw [step_of_empty hf] at h
  cases h

theorem step_of_run (h : r.run host (n + 1) = (.running, q)) :
    ∃ p, r.step host = (.running, p) ∧ p.run host n = (.running, q) := by
  rw [run] at h
  rcases hs : r.step host with ⟨v, p⟩
  rw [hs] at h
  cases v with
  | running => exact ⟨p, rfl, h⟩
  | done | failed e | starved call => cases h

theorem pieces_succ (h : r.run host n = (.running, q)) (hq : q.step host = (.running, p)) :
    r.pieces host (n + 1) = r.pieces host n ++ (pieceAt? (settle q.frames)).toList := by
  induction n generalizing r with
  | zero =>
    cases h
    exact (pieces_of_step hq 0).trans (List.append_nil _)
  | succ n ih =>
    obtain ⟨r', hr, h⟩ := step_of_run h
    rw [pieces_of_step hr, pieces_of_step hr, ih h, List.append_assoc]

theorem walk_of_run (h : r.run host n = (.running, q)) (units : Nat) (done : List Piece) :
    r.walk host (n + units) done = q.walk host units (done ++ r.pieces host n) := by
  induction n generalizing r done with
  | zero =>
    cases h
    rw [Nat.zero_add, pieces, List.append_nil]
  | succ n ih =>
    obtain ⟨r', hr, h⟩ := step_of_run h
    rw [Nat.add_right_comm, walk_succ (frames_of_step hr), hr, pieces_of_step hr]
    exact (ih h _).trans (congrArg _ (List.append_assoc _ _ _))

theorem units_of_run (h : r.run host n = (.running, q)) : q.units = r.units + n := by
  induction n generalizing r with
  | zero =>
    cases h
    rfl
  | succ n ih =>
    obtain ⟨p, hp, h⟩ := step_of_run h
    have hunits : p.units = r.units + 1 := by
      have hf := frames_of_step hp
      obtain ⟨frames, store, units, world, answers⟩ := r
      rw [step_of_live hf] at hp
      split at hp <;> cases hp
      rfl
    rw [ih h, hunits, Nat.add_assoc, Nat.add_comm 1]

theorem step_of_ended {v : Verdict} (h : r.step host = (v, q)) (hv : v ≠ .running) :
    q.store = r.store ∧ q.units = r.units := by
  by_cases hf : settle r.frames = []
  · rw [step_of_empty hf] at h
    cases h
    exact ⟨rfl, rfl⟩
  · obtain ⟨frames, store, units, world, answers⟩ := r
    rw [step_of_live hf] at h
    split at h
    · cases h
      exact absurd rfl hv
    · cases h
      exact ⟨rfl, rfl⟩
    · cases h
      exact ⟨rfl, rfl⟩

theorem of_done (h : r.step host = (.done, q)) : q = r ∧ settle r.frames = [] := by
  by_cases hf : settle r.frames = []
  · rw [step_of_empty hf] at h
    cases h
    exact ⟨rfl, hf⟩
  · obtain ⟨frames, store, units, world, answers⟩ := r
    rw [step_of_live hf] at h
    split at h <;> cases h

theorem empty_of_done (h : (r.step host).1 = .done) : settle r.frames = [] :=
  (of_done (Prod.ext h rfl)).2

theorem walk_of_failed {e : Error} (h : (r.step host).1 = .failed e) (done : List Piece) :
    (r.walk host 1 done).1 = .failed e := by
  have hf : settle r.frames ≠ [] := by
    intro hf
    rw [step_of_empty hf] at h
    cases h
  rw [walk_succ hf]
  rcases hs : r.step host with ⟨v, q⟩
  rw [hs] at h
  cases h
  rfl

theorem last_step {v : Verdict} (h : r.run host n = (v, q)) (hv : v ≠ .running) :
    ∃ k p, r.run host k = (.running, p) ∧ p.step host = (v, q) := by
  induction n generalizing r with
  | zero =>
    cases h
    exact absurd rfl hv
  | succ n ih =>
    rcases hs : r.step host with ⟨u, p⟩
    by_cases hu : u = .running
    · subst hu
      rw [run, hs] at h
      obtain ⟨k, p', hk, hp'⟩ := ih h
      exact ⟨k + 1, p', by rw [run, hs]; exact hk, hp'⟩
    · refine ⟨0, r, rfl, hs.trans ?_⟩
      rw [run, hs] at h
      cases u with
      | running => exact absurd rfl hu
      | done | failed e | starved call => exact h

end Reference

variable {program : Program} {s : σ}

/-- The walk along statements whose jumps stand in loops is the walk above a frame. -/
theorem walkAll_eq_goOn {ss : List Statement} (h : placedAll false ss = true) (w : Walk σ) :
    walkAll host ss w = goOn host [.block ss] w := by
  have hmirror : Mirrors host false [.block ss] (walkAll host ss) := mirrorAll false ss h
  have hgoOn := hmirror.goOn [] (absurd · Bool.false_ne_true) w
  have htame := hmirror.tame w
  refine Eq.trans ?_ hgoOn.symm
  generalize walkAll host ss w = result at htame
  obtain ⟨c, w⟩ := result
  cases c with
  | normal => exact (goOn_nil w).symm
  | broke | continued => exact absurd (htame.2 rfl) Bool.false_ne_true
  | cut | failed e | starved call => rfl

theorem Program.walk_eq (h : placedAll false program = true) (answers : List Value) (units : Nat) :
    program.walk host s answers units = (Reference.start program s answers).walk host units [] :=
  walkAll_eq_goOn h _

theorem walkAll_more {ss : List Statement} (h : placedAll false ss = true) (w : Walk σ) (more : Nat)
    (hend : (walkAll host ss w).1 ≠ .cut) : walkAll host ss { w with left := w.left + more } =
      ((walkAll host ss w).1,
        { (walkAll host ss w).2 with left := (walkAll host ss w).2.left + more }) := by
  induction more with
  | zero => rfl
  | succ more ih =>
    have hwalk (left : Nat) : walkAll host ss { w with left } =
        (⟨[.block ss], w.store, 0, w.world, w.answers⟩ : Reference σ).walk host left w.pieces :=
      walkAll_eq_goOn h _
    rw [hwalk] at ih
    rw [hwalk, ← Nat.add_assoc, Reference.walk_more _ _ _ (by rw [ih]; exact hend), ih]
    rfl

end ScopeBlocks.Script
