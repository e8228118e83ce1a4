import ScopeBlocks.Proofs.Script.Frames
import ScopeBlocks.Proofs.Script.Renamed

/-! Walks along scripts with other variables. What a script does depends on the variables that it uses without
having declared them: from two stores in which these have the same values, under their two names, both scripts
do the same, and the values stay the same. No variable is changed that the script does not mention. -/
namespace ScopeBlocks.Script

/-! What is mentioned. -/

def Expr.mentions (e : Expr) : List String := e.uses.map Use.name

def Assignment.mentions (a : Assignment) : List String := a.uses.map Use.name

def Binding.mentions (b : Binding) : List String := b.writes ++ b.uses.map Use.name

mutual

def Statement.mentions : Statement → List String
  | .bind b => b.mentions
  | .eval e => e.mentions
  | .branch branches otherwise => branchMentions branches ++ otherwiseMentions otherwise
  | .whileLoop cond body => cond.mentions ++ mentionsAll body
  | .forLoop init cond update body =>
    init.elim [] Binding.mentions ++ cond.elim [] Expr.mentions ++ update.elim [] Assignment.mentions ++
      mentionsAll body
  | .exitLoop | .nextRound => []

def mentionsAll : List Statement → List String
  | [] => []
  | s :: rest => s.mentions ++ mentionsAll rest

def branchMentions : List (Expr × List Statement) → List String
  | [] => []
  | (cond, body) :: rest => cond.mentions ++ mentionsAll body ++ branchMentions rest

def otherwiseMentions : Option (List Statement) → List String
  | none => []
  | some body => mentionsAll body

end

section Renaming

variable (ρ : String → String)

mutual

theorem Expr.mentions_rename : (e : Expr) → (e.rename ρ).mentions = e.mentions.map ρ
  | .literal _ => rfl
  | .var _ => rfl
  | .member e _ => e.mentions_rename
  | .unary _ e => e.mentions_rename
  | .binary _ l r => by
    have hl := l.mentions_rename
    have hr := r.mentions_rename
    unfold Expr.mentions at hl hr ⊢
    rw [Expr.rename, Expr.uses, Expr.uses, List.map_append, List.map_append, List.map_append, hl, hr]
  | .call _ args => argMentions_rename args

theorem argMentions_rename : (es : List Expr) →
    (argUses (Expr.renameArgs ρ es)).map Use.name = ((argUses es).map Use.name).map ρ
  | [] => rfl
  | e :: rest => by
    have he := e.mentions_rename
    unfold Expr.mentions at he
    rw [Expr.renameArgs, argUses, argUses, List.map_append, List.map_append, List.map_append, he,
      argMentions_rename rest]

end

theorem Assignment.mentions_rename (a : Assignment) : (a.rename ρ).mentions = a.mentions.map ρ := by
  have he := a.value.mentions_rename ρ
  unfold Expr.mentions at he
  simp only [mentions, uses, rename, List.map_cons, he, Use.name]

theorem Binding.mentions_rename (b : Binding) : (b.rename ρ).mentions = b.mentions.map ρ := by
  cases b with
  | declare x init =>
    cases init with
    | none => rfl
    | some e =>
      have he := e.mentions_rename ρ
      unfold Expr.mentions at he
      simp only [mentions, uses, writes, rename, Option.map_some, Option.elim_some, List.map_append,
        List.map_cons, List.map_nil, he]
  | assign a =>
    have ha := a.mentions_rename ρ
    unfold Assignment.mentions at ha
    simp only [mentions, uses, writes, rename, List.map_append, List.map_cons, List.map_nil, ha]
    rfl

theorem elim_mentions {α : Type} {f : α → α} {m : α → List String}
    (h : ∀ a, m (f a) = (m a).map ρ) (o : Option α) :
    (o.map f).elim [] m = (o.elim [] m).map ρ := by
  cases o with
  | none => rfl
  | some a => exact h a

mutual

theorem Statement.mentions_rename : (s : Statement) → (s.rename ρ).mentions = s.mentions.map ρ
  | .bind b => b.mentions_rename ρ
  | .eval e => e.mentions_rename ρ
  | .branch branches otherwise => by
    rw [Statement.rename, Statement.mentions, Statement.mentions, List.map_append, branchMentions_rename branches,
      otherwiseMentions_rename otherwise]
  | .whileLoop cond body => by
    rw [Statement.rename, Statement.mentions, Statement.mentions, List.map_append, cond.mentions_rename, mentionsAll_rename body]
  | .forLoop init cond update body => by
    rw [Statement.rename, Statement.mentions, Statement.mentions, List.map_append, List.map_append, List.map_append,
      elim_mentions ρ (Binding.mentions_rename ρ), elim_mentions ρ (Expr.mentions_rename ρ),
      elim_mentions ρ (Assignment.mentions_rename ρ), mentionsAll_rename body]
  | .exitLoop => rfl
  | .nextRound => rfl

theorem mentionsAll_rename : (ss : List Statement) →
    mentionsAll (renameAll ρ ss) = (mentionsAll ss).map ρ
  | [] => rfl
  | s :: rest => by
    rw [renameAll, mentionsAll, mentionsAll, List.map_append, s.mentions_rename,
      mentionsAll_rename rest]

theorem branchMentions_rename : (branches : List (Expr × List Statement)) →
    branchMentions (renameBranches ρ branches) = (branchMentions branches).map ρ
  | [] => rfl
  | (cond, body) :: rest => by
    rw [renameBranches, branchMentions, branchMentions, List.map_append, List.map_append,
      cond.mentions_rename, mentionsAll_rename body, branchMentions_rename rest]

theorem otherwiseMentions_rename : (otherwise : Option (List Statement)) →
    otherwiseMentions (renameOtherwise ρ otherwise) = (otherwiseMentions otherwise).map ρ
  | none => rfl
  | some body => mentionsAll_rename body

end

end Renaming

/-! Free uses are mentioned. -/

mutual

theorem Statement.free_mentions : (s : Statement) → ∀ u ∈ s.free, u.name ∈ s.mentions
  | .bind b, _, hu => List.mem_append_right _ (List.mem_map_of_mem hu)
  | .eval e, _, hu => List.mem_map_of_mem hu
  | .branch branches otherwise, u, hu => (List.mem_append.1 hu).elim
    (fun hu => List.mem_append_left _ (branch_free_mentions branches u hu))
    fun hu => List.mem_append_right _ (otherwise_free_mentions otherwise u hu)
  | .whileLoop cond body, u, hu => (List.mem_append.1 hu).elim
    (fun hu => List.mem_append_left _ (List.mem_map_of_mem hu))
    fun hu => List.mem_append_right _ (free_mentions body u hu)
  | .forLoop init cond update body, u, hu => by
    rw [Statement.mentions]
    rcases List.mem_append.1 hu with hu | hu
    · refine List.mem_append_left _ (List.mem_append_left _ (List.mem_append_left _ ?_))
      cases init with
      | none => cases hu
      | some b => exact List.mem_append_right _ (List.mem_map_of_mem hu)
    · rcases List.mem_append.1 (Use.mem_outside.1 hu).1 with hu | hu
      · refine List.mem_append_left _ ?_
        rcases List.mem_append.1 hu with hu | hu
        · refine List.mem_append_left _ (List.mem_append_right _ ?_)
          cases cond with
          | none => cases hu
          | some e => exact List.mem_map_of_mem hu
        · refine List.mem_append_right _ ?_
          cases update with
          | none => cases hu
          | some a => exact List.mem_map_of_mem hu
      · exact List.mem_append_right _ (free_mentions body u hu)
  | .exitLoop, _, hu | .nextRound, _, hu => absurd hu List.not_mem_nil

theorem free_mentions : (ss : List Statement) → ∀ u ∈ freeAll ss, u.name ∈ mentionsAll ss
  | [], _, hu => absurd hu List.not_mem_nil
  | s :: rest, u, hu => (List.mem_append.1 hu).elim
    (fun hu => List.mem_append_left _ (s.free_mentions u hu))
    fun hu => List.mem_append_right _ (free_mentions rest u (Use.mem_outside.1 hu).1)

theorem branch_free_mentions : (branches : List (Expr × List Statement)) →
    ∀ u ∈ freeBranches branches, u.name ∈ branchMentions branches
  | [], _, hu => absurd hu List.not_mem_nil
  | (cond, body) :: rest, u, hu => by
    rw [branchMentions]
    rcases List.mem_append.1 hu with hu | hu
    · refine List.mem_append_left _ ((List.mem_append.1 hu).elim (fun hu => ?_) fun hu => ?_)
      · exact List.mem_append_left _ (List.mem_map_of_mem hu)
      · exact List.mem_append_right _ (free_mentions body u hu)
    · exact List.mem_append_right _ (branch_free_mentions rest u hu)

theorem otherwise_free_mentions : (otherwise : Option (List Statement)) →
    ∀ u ∈ freeOtherwise otherwise, u.name ∈ otherwiseMentions otherwise
  | none, _, hu => absurd hu List.not_mem_nil
  | some body, u, hu => free_mentions body u hu

end

/-! Dialogues that are carried through. -/

section Dialogues

variable {σ α β : Type} {ρ : String → String}

def Ending.Renamed (ρ : String → String) (R : α → β → Prop) : Ending α → Ending β → Prop
  | .value a, .value b => R a b
  | .failed e, .failed e' => e' = e.rename ρ
  | .starved call, .starved call' => call' = call
  | _, _ => False

theorem Dialogue.Renamed.live {R : α → β → Prop} {x : Dialogue α} {y : Dialogue β}
    (h : Dialogue.Renamed ρ R x y) (host : Host σ) (w : Watched σ) (answers : List Value) :
    Ending.Renamed ρ R (x.live host w answers).1 (y.live host w answers).1 ∧
      (y.live host w answers).2 = (x.live host w answers).2 := by
  induction h generalizing w answers with
  | value h => exact ⟨h, rfl⟩
  | fail e => exact ⟨rfl, rfl⟩
  | @ask p args next next' _ ih =>
    obtain ⟨f, hf⟩ | ⟨call, hcall⟩ | ⟨cause, hcause⟩ := p.perform_cases host.watched args
    · rw [live_ask_of_onHost hf, live_ask_of_onHost hf]
      exact ih _ _ answers
    · cases answers with
      | nil =>
        rw [live_ask_of_suspend_nil hcall, live_ask_of_suspend_nil hcall]
        exact ⟨rfl, rfl⟩
      | cons v answers =>
        rw [live_ask_of_suspend hcall, live_ask_of_suspend hcall]
        exact ih v _ answers
    · rw [live_ask_of_fail hcause, live_ask_of_fail hcause]
      exact ⟨rfl, rfl⟩

end Dialogues

/-! Stores. -/

/-- Whether the live variables have in one store the values that they have under other names in another, which
has for all variables but the known ones what a third one has. -/
structure Store.Alongside (ρ : String → String) (known : List String) (kept : Store) (live : List String)
    (store store' : Store) : Prop where
  along : ∀ x ∈ live, store'.get? (ρ x) = store.get? x
  beside : ∀ x, x ∉ known.map ρ → store'.get? x = kept.get? x

variable {σ α β : Type} {ρ : String → String} {known live after : List String} {kept : Store}

namespace Store.Alongside

variable {store store' : Store}

theorem define (hρ : Function.Injective ρ) (h : Store.Alongside ρ known kept live store store') {x : String}
    (hx : x ∈ known) (v : Value) :
    Store.Alongside ρ known kept (x :: live) (store.define x v) (store'.define (ρ x) v) where
  along y hy := by
    rw [Store.define, Store.define, Dict.get?_insert, Dict.get?_insert]
    simp only [hρ.eq_iff]
    split
    · rfl
    · exact h.along y (List.mem_of_ne_of_mem ‹_› hy)
  beside y hy := by
    have hne : y ≠ ρ x := fun heq => hy (heq ▸ List.mem_map_of_mem hx)
    rw [Store.define, Dict.get?_insert, if_neg hne, h.beside y hy]

theorem mono (h : Store.Alongside ρ known kept live store store') {less : List String} (hsub : less ⊆ live) :
    Store.Alongside ρ known kept less store store' :=
  ⟨fun x hx => h.along x (hsub hx), h.beside⟩

theorem uses (h : Store.Alongside ρ known kept live store store') {us : List Use}
    (hu : ∀ u ∈ us, u.name ∈ live) : ∀ u ∈ us, store'.get? (ρ u.name) = store.get? u.name :=
  fun u hmem => h.along _ (hu u hmem)

end Store.Alongside

/-! Walks. -/

/-- Whether a run stands where another one does whose script calls its variables otherwise. -/
structure Walk.Alongside (ρ : String → String) (known : List String) (kept : Store) (live : List String)
    (w w' : Walk σ) : Prop where
  store : Store.Alongside ρ known kept live w.store w'.store
  world : w'.world = w.world
  answers : w'.answers = w.answers
  left : w'.left = w.left

theorem Walk.Alongside.mono {w w' : Walk σ} (h : Walk.Alongside ρ known kept live w w') {less : List String}
    (hsub : less ⊆ live) : Walk.Alongside ρ known kept less w w' :=
  ⟨h.store.mono hsub, h.world, h.answers, h.left⟩

def Completion.rename (ρ : String → String) : Completion → Completion
  | .failed e => .failed (e.rename ρ)
  | completion => completion

/-- Two ends that are the same but for the name of a variable that is missed. After a normal end, some more
variables may be live. -/
structure EndsAlongside (ρ : String → String) (known : List String) (kept : Store) (live after : List String)
    (r r' : Completion × Walk σ) : Prop where
  completion : r'.1 = r.1.rename ρ
  walk : Walk.Alongside ρ known kept live r.2 r'.2
  normal : r.1 = .normal → Walk.Alongside ρ known kept after r.2 r'.2

/-- Whether behaviours make the same of runs that stand at the same place. -/
def Behaviour.Alongside (ρ : String → String) (known : List String) (kept : Store) (live after : List String)
    (x y : Behaviour σ) : Prop :=
  ∀ w w', Walk.Alongside ρ known kept live w w' → EndsAlongside ρ known kept live after (x w) (y w')

variable {host : Host σ}

namespace Behaviour.Alongside

variable {x x' y y' : Behaviour σ} {less : List String}

theorem mono (h : Alongside ρ known kept live after x x') (hsub : less ⊆ after) :
    Alongside ρ known kept live less x x' := fun w w' hw =>
  ⟨(h w w' hw).completion, (h w w' hw).walk, fun hn => ((h w w' hw).normal hn).mono hsub⟩

theorem stays {c : Completion} (hc : c.rename ρ = c) :
    Alongside ρ known kept live live (fun w : Walk σ => (c, w)) fun w => (c, w) :=
  fun _ _ hw => ⟨hc.symm, hw, fun _ => hw⟩

theorem unit {R : α → β → Prop} {piece piece' : Piece} {d : Store → Dialogue α}
    {d' : Store → Dialogue β} {next : α → Behaviour σ} {next' : β → Behaviour σ}
    (hd : ∀ store store', Store.Alongside ρ known kept live store store' →
      Dialogue.Renamed ρ R (d store) (d' store'))
    (hnext : ∀ a b, R a b → Alongside ρ known kept live after (next a) (next' b)) :
    Alongside ρ known kept live after (Behaviour.unit host piece d next)
      (Behaviour.unit host piece' d' next') := by
  intro w w' hw
  obtain ⟨store, world, answers, left, pieces⟩ := w
  obtain ⟨store', world', answers', left', pieces'⟩ := w'
  obtain ⟨hstore, hworld, hanswers, hleft⟩ := hw
  dsimp only at hstore hworld hanswers hleft
  subst hworld hanswers hleft
  cases left' with
  | zero => exact ⟨rfl, ⟨hstore, rfl, rfl, rfl⟩, by rintro ⟨⟩⟩
  | succ left =>
    have hlive := (hd _ _ hstore).live host world' answers'
    rcases hx : (d store).live host world' answers' with ⟨a | e | call, world, answers⟩ <;>
      rcases hy : (d' store').live host world' answers' with ⟨b | e' | call', world₁, answers₁⟩ <;>
      rw [hx, hy] at hlive <;> obtain ⟨hending, ⟨⟩⟩ := hlive <;> try exact hending.elim
    · simp only [Behaviour.unit, hx, hy]
      exact hnext a b hending _ _ ⟨hstore, rfl, rfl, rfl⟩
    · simp only [Behaviour.unit, hx, hy]
      exact ⟨congrArg Completion.failed hending, ⟨hstore, rfl, rfl, rfl⟩, by rintro ⟨⟩⟩
    · simp only [Behaviour.unit, hx, hy]
      exact ⟨congrArg Completion.starved hending, ⟨hstore, rfl, rfl, rfl⟩, by rintro ⟨⟩⟩

theorem jump {piece piece' : Piece} {c : Completion} (hc : c.rename ρ = c) :
    Alongside ρ known kept live live
      (Behaviour.unit host piece (fun _ => .value ()) fun _ w => (c, w))
      (Behaviour.unit host piece' (fun _ => .value ()) fun _ w => (c, w)) :=
  unit (fun _ _ _ => .value (Eq.refl ())) fun _ _ _ => stays hc

theorem storing {piece piece' : Piece} {d d' : Store → Dialogue Store} (hsub : live ⊆ after)
    (hd : ∀ store store', Store.Alongside ρ known kept live store store' →
      Dialogue.Renamed ρ (Store.Alongside ρ known kept after) (d store) (d' store')) :
    Alongside ρ known kept live after (Behaviour.storing host piece d) (Behaviour.storing host piece' d') :=
  unit hd fun _ _ hstore _ _ hw =>
    ⟨rfl, ⟨hstore.mono hsub, hw.world, hw.answers, hw.left⟩, fun _ => ⟨hstore, hw.world, hw.answers, hw.left⟩⟩

theorem andThen {last : List String} (hsub : live ⊆ after) (hx : Alongside ρ known kept live after x x')
    (hy : Alongside ρ known kept after last y y') :
    Alongside ρ known kept live last (x.andThen y) (x'.andThen y') := by
  intro w w' hw
  obtain ⟨hcompletion, hwalk, hnormal⟩ := hx w w' hw
  unfold Behaviour.andThen
  rcases hr : x w with ⟨c, w₁⟩
  rcases hr' : x' w' with ⟨c', w₁'⟩
  rw [hr, hr'] at hcompletion hwalk hnormal
  dsimp only at hcompletion hwalk hnormal
  subst hcompletion
  cases c with
  | normal =>
    obtain ⟨hcompletion, hlast, hnormal⟩ := hy _ _ (hnormal rfl)
    exact ⟨hcompletion, hlast.mono hsub, hnormal⟩
  | broke | continued | cut | failed e | starved call => exact ⟨rfl, hwalk, by rintro ⟨⟩⟩

theorem before (hx : Alongside ρ known kept live after x x') (hy : Alongside ρ known kept live live y y') :
    Alongside ρ known kept live live (x.before y) (x'.before y') := by
  intro w w' hw
  obtain ⟨hcompletion, hwalk, -⟩ := hx w w' hw
  unfold Behaviour.before
  rcases hr : x w with ⟨c, w₁⟩
  rcases hr' : x' w' with ⟨c', w₁'⟩
  rw [hr, hr'] at hcompletion hwalk
  dsimp only at hcompletion hwalk
  subst hcompletion
  cases c with
  | normal | continued => exact hy _ _ hwalk
  | broke | cut | failed e | starved call => exact ⟨rfl, hwalk, fun _ => hwalk⟩

end Behaviour.Alongside

/-! Statements. -/

section Statements

variable (hρ : Function.Injective ρ)

include hρ

theorem Binding.storing_alongside (b : Binding) (hb : b.mentions ⊆ known) (huses : ∀ u ∈ b.uses, u.name ∈ live)
    {piece piece' : Piece} : Behaviour.Alongside ρ known kept live (b.declares ++ live)
      (Behaviour.storing host piece fun store => b.dialogue store)
      (Behaviour.storing host piece' fun store => (b.rename ρ).dialogue store) := by
  have hwrites := (List.append_subset.1 hb).1
  refine .storing (List.subset_append_right _ _) fun store store' hstore =>
    b.dialogue_along (hstore.uses huses) fun x hx v => (hstore.define hρ (hwrites hx) v).mono ?_
  cases b with
  | declare y init =>
    obtain rfl := List.mem_singleton.1 hx
    exact fun _ hy => hy
  | assign a => exact List.subset_cons_self _ _

theorem Assignment.storing_alongside (a : Assignment) (ha : a.mentions ⊆ known)
    (huses : ∀ u ∈ a.uses, u.name ∈ live) {piece piece' : Piece} : Behaviour.Alongside ρ known kept live live
      (Behaviour.storing host piece fun store => a.dialogue store)
      (Behaviour.storing host piece' fun store => (a.rename ρ).dialogue store) := by
  refine .storing (fun _ hx => hx) fun store store' hstore => a.dialogue_along (hstore.uses huses) fun v => ?_
  exact (hstore.define hρ (ha List.mem_cons_self) v).mono (List.subset_cons_self _ _)

namespace Loop

variable {body body' : Behaviour σ}

theorem update_alongside (l : Loop) (hl : l.update.elim [] Assignment.mentions ⊆ known)
    (huses : ∀ u ∈ l.update.elim [] Assignment.uses, u.name ∈ live) :
    Behaviour.Alongside ρ known kept live live (l.updateWalk host) ((l.rename ρ).updateWalk host) := by
  obtain ⟨init, cond, update, ss⟩ := l
  cases update with
  | none => exact .stays rfl
  | some a => exact a.storing_alongside hρ hl huses

theorem init_alongside (l : Loop) (hl : l.init.elim [] Binding.mentions ⊆ known)
    (huses : ∀ u ∈ l.init.elim [] Binding.uses, u.name ∈ live) :
    Behaviour.Alongside ρ known kept live (l.init.elim [] Binding.declares ++ live) (l.initWalk host)
      ((l.rename ρ).initWalk host) := by
  obtain ⟨init, cond, update, ss⟩ := l
  cases init with
  | none => exact .stays rfl
  | some b => exact b.storing_alongside hρ hl huses

omit hρ in
theorem test_along (l : Loop) (hl : ∀ u ∈ l.cond.elim [] Expr.uses, u.name ∈ live) {store store' : Store}
    (h : Store.Alongside ρ known kept live store store') :
    Dialogue.Renamed ρ Eq (l.testDialogue store) ((l.rename ρ).testDialogue store') := by
  obtain ⟨init, cond, update, ss⟩ := l
  cases cond with
  | none => exact .pure rfl
  | some e => exact (e.dialogue_along (h.uses hl)).bind_eq fun v => .pure rfl

theorem rounds_alongside (l : Loop) (hupdate : l.update.elim [] Assignment.mentions ⊆ known)
    (huses : ∀ u ∈ l.roundUses, u.name ∈ live)
    (hbody : Behaviour.Alongside ρ known kept live after body body') (n : Nat) :
    Behaviour.Alongside ρ known kept live live (l.rounds host body n) ((l.rename ρ).rounds host body' n) := by
  simp only [roundUses, List.forall_mem_append] at huses
  induction n with
  | zero => exact .stays rfl
  | succ n ih =>
    refine .unit (fun _ _ h => l.test_along huses.1.1 h) fun goesOn _ heq => ?_
    subst heq
    cases goesOn with
    | false => exact .stays rfl
    | true =>
      exact hbody.before (.andThen (fun _ hx => hx) (l.update_alongside hρ hupdate huses.1.2) ih)

theorem walk_alongside (l : Loop) (hupdate : l.update.elim [] Assignment.mentions ⊆ known)
    (huses : ∀ u ∈ l.roundUses, u.name ∈ live)
    (hbody : Behaviour.Alongside ρ known kept live after body body') :
    Behaviour.Alongside ρ known kept live live (l.walk host body) ((l.rename ρ).walk host body') := by
  intro w w' hw
  rw [Loop.walk, Loop.walk, hw.left]
  exact l.rounds_alongside hρ hupdate huses hbody _ w w' hw

end Loop

end Statements

theorem forall_outside {declared : List String} {us : List Use} (h : ∀ u ∈ Use.outside declared us, u.name ∈ live) :
    ∀ u ∈ us, u.name ∈ declared ++ live := by
  intro u hu
  by_cases hd : u.name ∈ declared
  · exact List.mem_append_left _ hd
  · exact List.mem_append_right _ (h u (Use.mem_outside.2 ⟨hu, hd⟩))

mutual

/-- A statement does the same under other names of the variables that it mentions, if those are live that it
uses; then those are as well that it declares. -/
theorem Statement.walk_alongside (hρ : Function.Injective ρ) : (s : Statement) → s.mentions ⊆ known →
    {live : List String} → (∀ u ∈ s.free, u.name ∈ live) →
    Behaviour.Alongside ρ known kept live (s.declares ++ live) (s.walk host) ((s.rename ρ).walk host)
  | .bind b, h, _, hfree => b.storing_alongside hρ h hfree
  | .eval e, _, _, hfree =>
    .unit (fun _ _ hstore => e.dialogue_along (hstore.uses hfree)) fun _ _ _ => .stays rfl
  | .branch branches otherwise, h, _, hfree => by
    obtain ⟨hbranches, hotherwise⟩ := List.append_subset.1 h
    obtain ⟨hfree, hfree'⟩ := List.forall_mem_append.1 hfree
    rw [Statement.rename, Statement.walk, Statement.walk]
    refine .unit (fun store store' hstore => ?_) fun _ _ hchosen => hchosen
    exact choiceWalk_alongside hρ hstore branches hbranches hfree
      (otherwiseWalk_alongside hρ otherwise hotherwise hfree')
  | .whileLoop cond body, h, _, hfree => by
    obtain ⟨-, hbody⟩ := List.append_subset.1 h
    obtain ⟨hcond, hfree⟩ := List.forall_mem_append.1 hfree
    refine Loop.walk_alongside hρ ⟨none, some cond, none, body⟩ (List.nil_subset _) ?_
      (walkAll_alongside hρ body hbody hfree)
    simp only [Loop.roundUses, List.forall_mem_append]
    exact ⟨⟨hcond, fun _ hu => absurd hu List.not_mem_nil⟩, hfree⟩
  | .forLoop init cond update body, h, live, hfree => by
    obtain ⟨hhead, hbody⟩ := List.append_subset.1 h
    obtain ⟨hhead, hupdate⟩ := List.append_subset.1 hhead
    obtain ⟨hinit, -⟩ := List.append_subset.1 hhead
    obtain ⟨huses, hfree⟩ := List.forall_mem_append.1 hfree
    have hrounds := forall_outside hfree
    rw [Statement.rename, Statement.walk, Statement.walk]
    refine .mono (.andThen (List.subset_append_right _ _)
      (Loop.init_alongside hρ ⟨init, cond, update, body⟩ hinit huses)
      (Loop.walk_alongside hρ ⟨init, cond, update, body⟩ hupdate hrounds
        (walkAll_alongside hρ body hbody (List.forall_mem_append.1 hrounds).2)))
      (List.subset_append_right _ _)
  | .exitLoop, _, _, _ | .nextRound, _, _, _ => by
    rw [Statement.rename, Statement.walk]
    exact .jump rfl

theorem walkAll_alongside (hρ : Function.Injective ρ) : (ss : List Statement) → mentionsAll ss ⊆ known →
    {live : List String} → (∀ u ∈ freeAll ss, u.name ∈ live) →
    Behaviour.Alongside ρ known kept live live (walkAll host ss) (walkAll host (renameAll ρ ss))
  | [], _, _, _ => .stays rfl
  | s :: rest, h, live, hfree => by
    obtain ⟨hs, hrest⟩ := List.append_subset.1 h
    obtain ⟨hfree, hlater⟩ := List.forall_mem_append.1 hfree
    rw [renameAll, walkAll, walkAll]
    exact .mono (.andThen (List.subset_append_right _ _) (s.walk_alongside hρ hs hfree)
      (walkAll_alongside hρ rest hrest (forall_outside hlater))) (List.subset_append_right _ _)

theorem choiceWalk_alongside (hρ : Function.Injective ρ) {live : List String} {store store' : Store}
    (hstore : Store.Alongside ρ known kept live store store') {otherwise otherwise' : Behaviour σ} :
    (branches : List (Expr × List Statement)) → branchMentions branches ⊆ known →
    (∀ u ∈ freeBranches branches, u.name ∈ live) →
    Behaviour.Alongside ρ known kept live live otherwise otherwise' →
    Dialogue.Renamed ρ (Behaviour.Alongside ρ known kept live live) (choiceWalk host store otherwise branches)
      (choiceWalk host store' otherwise' (renameBranches ρ branches))
  | [], _, _, hotherwise => .pure hotherwise
  | (cond, body) :: rest, h, hfree, hotherwise => by
    obtain ⟨hhead, hrest⟩ := List.append_subset.1 h
    obtain ⟨-, hbody⟩ := List.append_subset.1 hhead
    simp only [freeBranches, List.forall_mem_append] at hfree
    obtain ⟨⟨hcond, hfree⟩, hlater⟩ := hfree
    exact (cond.dialogue_along (hstore.uses hcond)).bind_eq fun v =>
      .ite (.pure (walkAll_alongside hρ body hbody hfree))
        (choiceWalk_alongside hρ hstore rest hrest hlater hotherwise)

theorem otherwiseWalk_alongside (hρ : Function.Injective ρ) : (otherwise : Option (List Statement)) →
    otherwiseMentions otherwise ⊆ known → {live : List String} →
    (∀ u ∈ freeOtherwise otherwise, u.name ∈ live) →
    Behaviour.Alongside ρ known kept live live (otherwiseWalk host otherwise)
      (otherwiseWalk host (renameOtherwise ρ otherwise))
  | none, _, _, _ => .stays rfl
  | some body, h, _, hfree => walkAll_alongside hρ body h hfree

end

end ScopeBlocks.Script
