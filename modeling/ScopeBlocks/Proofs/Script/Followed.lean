import ScopeBlocks.Proofs.Script.Outcomes
import ScopeBlocks.Proofs.Script.Standing
import ScopeBlocks.Proofs.Script.Tidy

/-! Scripts in which every mark is followed by a statement of the same block. The unit of a mark is the mark
alone: it ends neither a block nor the run, and is no part of a unit that waits. -/
namespace ScopeBlocks.Script

def Statement.isMark : Statement → Bool
  | .eval e => e.isMark
  | _ => false

mutual

/-- Whether every mark inside a statement is followed by another statement. -/
def Statement.followed : Statement → Bool
  | .branch branches otherwise => followedBranches branches && followedOtherwise otherwise
  | .whileLoop _ body | .forLoop _ _ _ body => followedAll body
  | _ => true

def followedAll : List Statement → Bool
  | [] => true
  | s :: rest => !(s.isMark && rest.isEmpty) && s.followed && followedAll rest

def followedBranches : List (Expr × List Statement) → Bool
  | [] => true
  | (_, body) :: rest => followedAll body && followedBranches rest

def followedOtherwise : Option (List Statement) → Bool
  | none => true
  | some body => followedAll body

end

def Frame.followed : Frame → Bool
  | .block rest => followedAll rest
  | .loop l _ => followedAll l.body

/-- Whether every mark in what a machine has still to run is followed. -/
def Followed (frames : List Frame) : Prop := ∀ f ∈ frames, f.followed = true

section

variable {frames rest : List Frame}

theorem Followed.cons {f : Frame} (hf : f.followed = true) (h : Followed frames) :
    Followed (f :: frames) := List.forall_mem_cons.2 ⟨hf, h⟩

theorem Followed.suffix (h : Followed frames) (hr : rest <:+ frames) : Followed rest :=
  fun f hf => h f (hr.subset hf)

theorem settle_suffix (frames : List Frame) : settle frames <:+ frames := by
  fun_induction settle frames with
  | case1 frames ih => exact ih.trans (List.suffix_cons _ _)
  | case2 => exact List.suffix_rfl

theorem afterLoop?_suffix (hr : afterLoop? frames = some rest) : rest <:+ frames := by
  induction frames with
  | nil => cases hr
  | cons f frames ih =>
    cases f with
    | block => exact (ih hr).trans (List.suffix_cons _ _)
    | loop =>
      cases hr
      exact List.suffix_cons _ _

theorem fromLoop?_suffix (hr : fromLoop? frames = some rest) : rest <:+ frames := by
  induction frames with
  | nil => cases hr
  | cons f frames ih =>
    cases f with
    | block => exact (ih hr).trans (List.suffix_cons _ _)
    | loop =>
      cases hr
      exact List.suffix_rfl

end

/-! Units. Where a script fails has no part in this. -/

variable {store : Store} {frames : List Frame}

theorem yields_any {α : Type} (x : Dialogue α) : x.Yields (fun _ => True) (fun _ => True) := by
  induction x with
  | value a => exact trivial
  | fail e => exact trivial
  | ask p args next ih => exact ih

theorem choice_followed {otherwise : Option (List Statement)} (ho : followedOtherwise otherwise = true)
    (branches : List (Expr × List Statement)) (h : followedBranches branches = true) :
    (choiceDialogue store otherwise branches).Yields (followedOtherwise · = true) (fun _ => True) := by
  induction branches with
  | nil => exact ho
  | cons branch rest ih =>
    obtain ⟨cond, body⟩ := branch
    unfold followedBranches at h
    obtain ⟨hb, hrest⟩ := Bool.and_eq_true_iff.1 h
    unfold choiceDialogue
    refine .bind (yields_any _) fun v _ => ?_
    split
    · exact hb
    · exact ih hrest

theorem Loop.dialogue_followed {l : Loop} (phase : LoopPhase) (hl : followedAll l.body = true)
    (h : Followed frames) :
    (l.dialogue store phase frames).Yields (fun p => Followed p.1) (fun _ => True) := by
  unfold Loop.dialogue
  split
  next => exact .bind (yields_any _) fun _ _ => .pure (.cons hl h)
  next => exact .bind (yields_any _) fun _ _ => .pure (.cons hl h)
  next =>
    refine .bind (yields_any _) fun go _ => ?_
    split
    · exact .pure (.cons hl (.cons hl h))
    · exact .pure h

theorem Statement.dialogue_followed {s : Statement} (hs : s.followed = true) (h : Followed frames) :
    (s.dialogue store frames).Yields (fun p => Followed p.1) (fun _ => True) := by
  cases s with
  | bind b => exact .bind (yields_any _) fun _ _ => .pure h
  | eval e => exact .bind (yields_any _) fun _ _ => .pure h
  | branch branches otherwise =>
    unfold followed at hs
    obtain ⟨hb, ho⟩ := Bool.and_eq_true_iff.1 hs
    refine .bind (choice_followed ho branches hb) fun chosen hchosen => ?_
    cases chosen with
    | none => exact .pure h
    | some body => exact .pure (.cons hchosen h)
  | whileLoop cond body =>
    unfold followed at hs
    exact Loop.dialogue_followed .test hs h
  | forLoop init cond update body =>
    unfold followed at hs
    exact Loop.dialogue_followed .init hs h
  | exitLoop =>
    unfold dialogue
    dsimp only
    split
    next hr => exact .pure (h.suffix (afterLoop?_suffix hr))
    next => exact trivial
  | nextRound =>
    unfold dialogue
    dsimp only
    split
    next hr => exact .pure (h.suffix (fromLoop?_suffix hr))
    next => exact trivial

theorem unit_followed (h : Followed frames) :
    (unitDialogue store frames).Yields (fun p => Followed p.1) (fun _ => True) := by
  unfold unitDialogue
  split
  next s rest frames =>
    obtain ⟨hhead, htail⟩ := List.forall_mem_cons.1 h
    unfold Frame.followed followedAll at hhead
    simp only [Bool.and_eq_true] at hhead
    exact Statement.dialogue_followed hhead.1.2 (.cons (f := .block rest) hhead.2 htail)
  next l phase frames =>
    obtain ⟨hhead, htail⟩ := List.forall_mem_cons.1 h
    exact Loop.dialogue_followed phase hhead htail
  next => exact .pure (h.suffix (settle_suffix _))

theorem abides_followed : Abides (fun p => Followed p.1) (fun _ => True) where
  settle h := h.suffix (settle_suffix _)
  halt _ := fun _ hf => absurd hf List.not_mem_nil
  unit := unit_followed
  misuse _ _ := trivial

/-! Marks. A machine that stands at a mark is about to do that and nothing else. -/

namespace Machine

def at? (m : Machine) : Option Statement :=
  match settle m.frames with
  | .block (s :: _) :: _ => some s
  | _ => none

/-- A machine that is at a mark has not tried it before. -/
def Poised (m : Machine) : Prop :=
  ∀ s, m.at? = some s → s.isMark = true → m.recorded = [] ∧ m.isSuspended = false

/-- A machine at a mark, with what comes after it: the mark is done with the next unit, which does nothing
else. -/
structure AtMark (m : Machine) (id : String) (rest : List Statement) (below : List Frame) : Prop where
  status : m.status = .ready
  frames : settle m.frames = .block (.eval (.call .mark [.literal (.string id)]) :: rest) :: below
  recorded : m.recorded = []
  rest : rest ≠ []

def marked (m : Machine) (rest : List Statement) (below : List Frame) : Machine :=
  { m with frames := .block rest :: below, units := m.units + 1 }

variable {σ τ : Type} {host : Host σ} {view : σ → τ} {m : Machine}

theorem AtMark.step {id : String} {rest : List Statement} {below : List Frame}
    (h : m.AtMark id rest below) (s : σ) :
    m.step host s = (.ok .continue, m.marked rest below, host.mark id s) := by
  obtain ⟨hstatus, hframes, hrecorded, hrest⟩ := h
  obtain ⟨first, rest, rfl⟩ := List.exists_cons_of_ne_nil hrest
  unfold Machine.step
  rw [hstatus, hframes, hrecorded]
  show (_, _, _) = _
  simp [marked, advance, isFinished, Script.settle, hstatus, hrecorded]

theorem AtMark.followed {id : String} {rest : List Statement} {below : List Frame}
    (h : m.AtMark id rest below) (hf : Followed m.frames) : Followed (m.marked rest below).frames := by
  have hsettled := hf.suffix (settle_suffix m.frames)
  rw [h.frames] at hsettled
  obtain ⟨hhead, htail⟩ := List.forall_mem_cons.1 hsettled
  unfold Frame.followed followedAll at hhead
  simp only [Bool.and_eq_true] at hhead
  exact .cons (f := .block rest) hhead.2 htail

theorem poised_ofProgram (program : Program) : (ofProgram program).Poised := fun _ _ _ => ⟨rfl, rfl⟩

theorem poised_of_free (hr : m.recorded = []) (h : m.isSuspended = false) : m.Poised :=
  fun _ _ _ => ⟨hr, h⟩

theorem Poised.resolve (h : m.Poised) {call : AsyncCall} (hstatus : m.status = .awaiting call)
    (v : Value) : Poised { m with recorded := m.recorded ++ [v], status := .ready } := by
  intro s hs hmark
  obtain ⟨-, hfree⟩ := h s hs hmark
  rw [isSuspended_of_awaiting hstatus] at hfree
  cases hfree

theorem isMark_eq {s : Statement} (h : s.isMark = true) :
    ∃ id, s = .eval (.call .mark [.literal (.string id)]) := by
  unfold Statement.isMark at h
  split at h
  next e =>
    unfold Expr.isMark at h
    split at h
    next id => exact ⟨id, rfl⟩
    next => cases h
  next => cases h

/-- A unit at no mark leaves alone whatever a host keeps of its marks. -/
theorem keeps_unit (hu : Unseen host view) (store : Store) {frames : List Frame} (ht : Tidy frames)
    (hmark : ∀ s rest below, frames = .block (s :: rest) :: below → s.isMark = false) :
    Keeps view (fun p => Tidy p.1) (runUnit host store frames) := by
  unfold runUnit
  split
  next s rest below =>
    have hhead := ht.head
    unfold Frame.tidy tidyAll at hhead
    obtain ⟨hs, hrest⟩ := Bool.and_eq_true_iff.1 hhead
    refine Statement.keeps_run hu store hs (.cons (f := .block rest) hrest ht.tail) ?_
    rintro e rfl
    exact hmark _ _ _ rfl
  next l phase below => exact Loop.keeps_run hu store phase ht.head ht.tail
  next => exact .pure ht.settle

theorem isSuspended_advance (m : Machine) (position : Position) :
    (m.advance position).isSuspended = false := by
  unfold advance isSuspended
  dsimp only
  cases (Script.settle position.1).isEmpty <;> rfl

theorem exists_atMark (hf : Followed m.frames) (hp : m.Poised) (hstatus : m.status = .ready)
    {s : Statement} (hs : m.at? = some s) (hmark : s.isMark = true) :
    ∃ id rest below, m.AtMark id rest below := by
  obtain ⟨hrecorded, -⟩ := hp s hs hmark
  obtain ⟨id, rfl⟩ := isMark_eq hmark
  unfold at? at hs
  split at hs
  next s' rest below hframes =>
    cases hs
    refine ⟨id, rest, below, hstatus, hframes, hrecorded, ?_⟩
    have hhead := (hframes ▸ hf.suffix (settle_suffix m.frames)) _ List.mem_cons_self
    rintro rfl
    cases hhead
  next => cases hs

/-- A machine that does not stand ready at a mark. -/
def OffMark (m : Machine) : Prop := m.status = .ready → ∀ s, m.at? = some s → s.isMark = false

theorem OffMark.keeps_step (h : m.OffMark) (ht : Tidy m.frames) (hu : Unseen host view) (s : σ) :
    view (m.step host s).2.2 = view s := by
  unfold Machine.step
  split
  next => rfl
  next => rfl
  next hstatus =>
    split
    next => rfl
    next =>
      have hmark : ∀ s rest below, settle m.frames = .block (s :: rest) :: below →
          s.isMark = false := fun s rest below hframes =>
        h hstatus s (by simp only [at?, hframes])
      obtain ⟨hview, -⟩ := keeps_unit hu m.store ht.settle hmark ⟨.ofEntries m.recorded, s⟩
      split
      all_goals
        rename_i hr
        rw [hr] at hview
        exact hview

theorem OffMark.poised_step (h : m.OffMark) (hp : m.Poised) (host : Host σ) (s : σ) :
    (m.step host s).2.1.Poised := by
  unfold Machine.step
  split
  next => exact hp
  next => exact hp
  next hstatus =>
    split
    next => exact fun s hs => by cases hs
    next =>
      split
      next position tape hr => exact poised_of_free rfl (m.isSuspended_advance position)
      next call tape hr =>
        -- a unit that waits stays at its statement, which is no mark
        intro s' hs hmark
        have hsame : m.at? = some s' := by simpa only [at?, settle_settle] using hs
        rw [h hstatus s' hsame] at hmark
        cases hmark
      next e tape hr => exact fun s hs => by cases hs

/-- A machine is at a mark, or its next unit marks nothing. -/
theorem marks_or_keeps (ht : Tidy m.frames) (hf : Followed m.frames) (hp : m.Poised) :
    (∃ id rest below, m.AtMark id rest below) ∨
      (∀ {σ τ : Type} {host : Host σ} {view : σ → τ}, Unseen host view →
        ∀ s, view (m.step host s).2.2 = view s) ∧
      ∀ {σ : Type} (host : Host σ) (s : σ), (m.step host s).2.1.Poised := by
  by_cases hat : m.status = .ready ∧ ∃ s, m.at? = some s ∧ s.isMark = true
  · obtain ⟨hstatus, s, hs, hmark⟩ := hat
    exact .inl (exists_atMark hf hp hstatus hs hmark)
  · have hoff : m.OffMark := fun hstatus s hs => by
      simpa using fun hmark => hat ⟨hstatus, s, hs, hmark⟩
    exact .inr ⟨fun hu s => hoff.keeps_step ht hu s, fun host s => hoff.poised_step hp host s⟩

end Machine

end ScopeBlocks.Script
