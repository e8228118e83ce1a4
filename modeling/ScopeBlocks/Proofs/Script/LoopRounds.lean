import ScopeBlocks.Proofs.Script.RenamedWalk
import ScopeBlocks.Proofs.Script.WalkUnits

/-! Loops that go round alike. Two loops whose tests come to the same, and whose updates do so or else both come
to a failure before the next round, begin their rounds with the same values of a variable, and end both or
neither. -/
namespace ScopeBlocks.Script

variable {σ : Type}

/-! Two ends. -/

/-- Whether a run has failed where another one has failed as well, or is cut off one unit before it does. -/
def BothFail (r r' : Completion × Walk σ) : Prop :=
  (∃ e, r.1 = .failed e) ∧ ((∃ e, r'.1 = .failed e) ∨ r'.1 = .cut ∧ r.2.left = 1)

/-- Two ends of loops: they are the same, or both runs fail, the second one perhaps a unit later. -/
def SameEnd (ρ : String → String) (known : List String) (kept : Store) (live : List String)
    (r r' : Completion × Walk σ) : Prop :=
  EndsAlongside ρ known kept live live r r' ∨ BothFail r r'

namespace Loop

/-! Rounds. -/

end Loop

/-- A round of a loop: where its body is entered, how it ends and where. -/
structure Round (σ : Type) where
  entry : Walk σ
  ended : Completion
  exit : Walk σ

def Round.of (body : Behaviour σ) (w : Walk σ) : Round σ := ⟨w, (body w).1, (body w).2⟩

def Round.value (x : String) (r : Round σ) : Option Value := r.entry.store.get? x

namespace Loop

section

variable (host : Host σ) (l : Loop) (body : Behaviour σ)

/-- The test before a round, which is left open if the round begins. -/
def testWalk : Behaviour σ := Behaviour.unit host (.test l.cond) l.testDialogue fun goesOn w =>
  (if goesOn then .continued else .normal, w)

/-- A round up to the next test, which is left open. -/
def roundWalk : Behaviour σ := body.before ((l.updateWalk host).andThen fun w => (.continued, w))

/-- The rounds of a loop that are begun, at most as many as given. -/
def entered : Nat → Walk σ → List (Round σ)
  | 0, _ => []
  | n + 1, w =>
    match l.testWalk host w with
    | (.continued, w) => .of body w ::
      match l.roundWalk host body w with
      | (.continued, w) => entered n w
      | _ => []
    | _ => []

/-- The values of a variable with which the rounds of a loop begin. -/
def roundValues (x : String) (n : Nat) (w : Walk σ) : List (Option Value) :=
  (l.entered host body n w).map (Round.value x)

theorem testWalk_of_left {w : Walk σ} (h : w.left = 0) : l.testWalk host w = (.cut, w) :=
  Behaviour.unit_of_left h

variable {host l body}

theorem roundValues_succ (x : String) (n : Nat) (w : Walk σ) : l.roundValues host body x (n + 1) w =
    match l.testWalk host w with
    | (.continued, w) => w.store.get? x ::
      match l.roundWalk host body w with
      | (.continued, w) => l.roundValues host body x n w
      | _ => []
    | _ => [] := by
  unfold roundValues
  rw [entered]
  rcases l.testWalk host w with ⟨c, u⟩
  cases c with
  | normal | broke | cut | failed e | starved call => rfl
  | continued =>
    dsimp only [List.map_cons]
    rcases l.roundWalk host body u with ⟨c, v⟩
    cases c <;> rfl

theorem rounds_succ (n : Nat) (w : Walk σ) : l.rounds host body (n + 1) w =
    match l.testWalk host w with
    | (.continued, w) =>
      match l.roundWalk host body w with
      | (.continued, w) => l.rounds host body n w
      | ended => ended
    | ended => ended := by
  have hround (w : Walk σ) : body.before ((l.updateWalk host).andThen (l.rounds host body n)) w =
      match l.roundWalk host body w with
      | (.continued, w) => l.rounds host body n w
      | ended => ended := by
    have hupdate (w : Walk σ) : (l.updateWalk host).andThen (l.rounds host body n) w =
        match (l.updateWalk host).andThen (fun w => (.continued, w)) w with
        | (.continued, w) => l.rounds host body n w
        | ended => ended := by
      have htame := ((tame_update false : (l.updateWalk host).Tame false) w).2
      unfold Behaviour.andThen
      generalize l.updateWalk host w = r at htame
      obtain ⟨c, w'⟩ := r
      cases c with
      | normal => rfl
      | broke | continued => exact absurd (htame rfl) Bool.false_ne_true
      | cut | failed e | starved call => rfl
    unfold roundWalk Behaviour.before
    rcases body w with ⟨c, w'⟩
    cases c with
    | normal | continued => exact hupdate w'
    | broke | cut | failed e | starved call => rfl
  rw [rounds, testWalk, Behaviour.unit, Behaviour.unit]
  cases w.left with
  | zero => rfl
  | succ left =>
    rcases (l.testDialogue w.store).live host w.world w.answers with ⟨goesOn | e | call, world, answers⟩
    · cases goesOn with
      | false => rfl
      | true => exact hround _
    · rfl
    · rfl

theorem tame_round (h : body.Tame true) : (l.roundWalk host body).Tame true :=
  h.before ((tame_update true).andThen (.stays fun _ => rfl))

theorem testWalk_of_fail {w : Walk σ} {e : Error} (h : l.testDialogue w.store = .fail e)
    (hleft : w.left ≠ 0) : (l.testWalk host w).1 = .failed e := by
  obtain ⟨store, world, answers, left, pieces⟩ := w
  cases left with
  | zero => exact absurd rfl hleft
  | succ left =>
    dsimp only at h
    simp only [testWalk, Behaviour.unit, h, Dialogue.live]

theorem rounds_of_failing {x : String} {n : Nat} {w : Walk σ}
    (h : w.left ≠ 0 → ∃ e, (l.testWalk host w).1 = .failed e) (hn : w.left < n) :
    l.roundValues host body x n w = [] ∧ ((∃ e, (l.rounds host body n w).1 = .failed e) ∨
      (l.rounds host body n w).1 = .cut ∧ w.left = 0) := by
  obtain ⟨n, rfl⟩ := Nat.exists_eq_succ_of_ne_zero (Nat.ne_zero_of_lt hn)
  rw [rounds_succ, roundValues_succ]
  by_cases hleft : w.left = 0
  · rw [testWalk_of_left host l hleft]
    exact ⟨rfl, .inr ⟨rfl, hleft⟩⟩
  · obtain ⟨e, he⟩ := h hleft
    generalize l.testWalk host w = r at he
    obtain ⟨c, u⟩ := r
    dsimp only at he
    subst he
    exact ⟨rfl, .inl ⟨e, rfl⟩⟩

theorem left_of_testWalk {w w' : Walk σ} (h : l.testWalk host w = (.continued, w')) :
    w'.left + 1 = w.left := by
  obtain ⟨store, world, answers, left, pieces⟩ := w
  unfold testWalk Behaviour.unit at h
  cases left with
  | zero => cases h
  | succ left =>
    dsimp only at h
    split at h
    · cases (Prod.mk.inj h).2
      rfl
    · cases h
    · cases h

end

/-! Rounds of two loops. -/

/-- Whether a run has failed where another one has failed as well, or ends otherwise and is about to fail at the
test of its loop. -/
def FailsToo (host : Host σ) (l' : Loop) (c : Completion) (r r' : Completion × Walk σ) : Prop :=
  (∃ e, r.1 = .failed e) ∧ ((∃ e, r'.1 = .failed e) ∨ r'.1 = c ∧ r'.2.left + 1 = r.2.left ∧
    (r'.2.left ≠ 0 → ∃ e, (l'.testWalk host r'.2).1 = .failed e))

/-- Whether a change of variables fails, or leaves a store in which the test of a loop does. -/
def Stuck (l : Loop) (d : Dialogue Store) : Prop :=
  (∃ e, d = .fail e) ∨ ∃ store e, d = .value store ∧ l.testDialogue store = .fail e

/-- Whether the clauses of two loops do the same under two namings of their variables. Their updates may differ
where neither loop comes to another round. -/
structure Imitates (ρ : String → String) (known : List String) (kept : Store) (live : List String) (l l' : Loop)
    (a a' : Assignment) : Prop where
  update : l.update = some a
  update' : l'.update = some a'
  test : ∀ store store', Store.Alongside ρ known kept live store store' →
    Dialogue.Renamed ρ Eq (l.testDialogue store) (l'.testDialogue store')
  change : ∀ store store', Store.Alongside ρ known kept live store store' →
    Dialogue.Renamed ρ (Store.Alongside ρ known kept live) (a.dialogue store) (a'.dialogue store') ∨
      (∃ e, a.dialogue store = .fail e) ∧ l'.Stuck (a'.dialogue store')

section

variable {host : Host σ} {ρ : String → String} {known live after : List String} {kept : Store} {l l' : Loop}
  {a a' : Assignment} {body body' : Behaviour σ}

namespace Imitates

variable (h : Imitates ρ known kept live l l' a a')

include h

variable (host) in
theorem testWalk_alongside :
    Behaviour.Alongside ρ known kept live live (l.testWalk host) (l'.testWalk host) := by
  refine .unit h.test ?_
  rintro goesOn _ rfl
  cases goesOn <;> exact .stays rfl

variable (host) in
theorem updateWalk_imitates {w w' : Walk σ} (hw : Walk.Alongside ρ known kept live w w') :
    EndsAlongside ρ known kept live live (l.updateWalk host w) (l'.updateWalk host w') ∨
      l'.FailsToo host .normal (l.updateWalk host w) (l'.updateWalk host w') := by
  unfold updateWalk
  rw [h.update, h.update']
  rcases h.change _ _ hw.store with hsame | ⟨⟨e, hfail⟩, hstuck⟩
  · -- the changes of these very stores come to the same
    have hunit : Behaviour.Alongside ρ known kept live live
        (Behaviour.storing host (.update a) fun _ => a.dialogue w.store)
        (Behaviour.storing host (.update a') fun _ => a'.dialogue w'.store) :=
      .storing (fun _ hx => hx) fun _ _ _ => hsame
    exact .inl (hunit w w' hw)
  · obtain ⟨store, world, answers, left, pieces⟩ := w
    obtain ⟨store', world', answers', left', pieces'⟩ := w'
    obtain ⟨hstore, hworld, hanswers, hleft⟩ := hw
    dsimp only at hstore hworld hanswers hleft hfail hstuck
    subst hworld hanswers hleft
    cases left' with
    | zero => exact .inl ⟨rfl, ⟨hstore, rfl, rfl, rfl⟩, by rintro ⟨⟩⟩
    | succ left =>
      simp only [Behaviour.storing, Behaviour.unit, hfail, Dialogue.live]
      refine .inr ⟨⟨e, rfl⟩, ?_⟩
      rcases hstuck with ⟨e', hfail'⟩ | ⟨store'', e', hvalue, hstuck⟩
      · rw [hfail']
        exact .inl ⟨e', rfl⟩
      · rw [hvalue]
        exact .inr ⟨rfl, rfl, fun hne => ⟨e', testWalk_of_fail hstuck hne⟩⟩

variable (host) in
/-- A round goes on to its end like that of the other loop, or both loops are about to fail. -/
theorem roundWalk_imitates (hbody : Behaviour.Alongside ρ known kept live after body body') {w w' : Walk σ}
    (hw : Walk.Alongside ρ known kept live w w') :
    EndsAlongside ρ known kept live live (l.roundWalk host body w) (l'.roundWalk host body' w') ∨
      l'.FailsToo host .continued (l.roundWalk host body w) (l'.roundWalk host body' w') := by
  have hround := hbody w w' hw
  unfold roundWalk Behaviour.before
  generalize body w = r at hround
  generalize body' w' = r' at hround
  obtain ⟨c, u⟩ := r
  obtain ⟨c', u'⟩ := r'
  obtain ⟨hcompletion, hu, -⟩ := hround
  dsimp only at hcompletion hu
  subst hcompletion
  cases c with
  | broke | cut | failed e | starved call => exact .inl ⟨rfl, hu, fun _ => hu⟩
  | normal | continued =>
    have hupdate := h.updateWalk_imitates host hu
    dsimp only [Completion.rename]
    unfold Behaviour.andThen
    generalize l.updateWalk host u = r at hupdate
    generalize l'.updateWalk host u' = r' at hupdate
    obtain ⟨c, v⟩ := r
    obtain ⟨c', v'⟩ := r'
    rcases hupdate with ⟨hcompletion, hv, -⟩ | ⟨⟨e, hfail⟩, hlate⟩
    · dsimp only at hcompletion hv
      subst hcompletion
      cases c <;> exact .inl ⟨rfl, hv, fun _ => hv⟩
    · dsimp only at hfail
      subst hfail
      refine .inr ⟨⟨e, rfl⟩, ?_⟩
      rcases hlate with ⟨e', hfail'⟩ | ⟨hnormal, hlate⟩
      · dsimp only at hfail'
        subst hfail'
        exact .inl ⟨e', rfl⟩
      · dsimp only at hnormal
        subst hnormal
        exact .inr ⟨rfl, hlate⟩

theorem rounds_imitate {x : String} (hx : x ∈ live) (hρ : ρ x = x) (htame : body.Tame true)
    (hbody : Behaviour.Alongside ρ known kept live after body body') (n : Nat) {w w' : Walk σ}
    (hw : Walk.Alongside ρ known kept live w w') (hn : w.left < n) :
    l'.roundValues host body' x n w' = l.roundValues host body x n w ∧
      SameEnd ρ known kept live (l.rounds host body n w) (l'.rounds host body' n w') := by
  induction n generalizing w w' with
  | zero => exact absurd hn (Nat.not_lt_zero _)
  | succ n ih =>
    rw [rounds_succ, rounds_succ, roundValues_succ, roundValues_succ]
    have htest := h.testWalk_alongside host w w' hw
    have hleft (u : Walk σ) (hu : l.testWalk host w = (.continued, u)) := left_of_testWalk hu
    generalize l.testWalk host w = r at htest hleft
    generalize l'.testWalk host w' = r' at htest
    obtain ⟨c, u⟩ := r
    obtain ⟨c', u'⟩ := r'
    obtain ⟨hcompletion, hu, -⟩ := htest
    dsimp only at hcompletion hu
    subst hcompletion
    cases c with
    | normal | broke | cut | failed e | starved call => exact ⟨rfl, .inl ⟨rfl, hu, fun _ => hu⟩⟩
    | continued =>
      have hvalue : u'.store.get? x = u.store.get? x := by
        have halong := hu.store.along x hx
        rwa [hρ] at halong
      have hround := h.roundWalk_imitates host hbody hu
      have hgiven := ((tame_round htame : (l.roundWalk host body).Tame true) u).1
      have hleft := hleft u rfl
      dsimp only [Completion.rename]
      rw [hvalue]
      generalize l.roundWalk host body u = r at hround hgiven
      generalize l'.roundWalk host body' u' = r' at hround
      obtain ⟨c, v⟩ := r
      obtain ⟨c', v'⟩ := r'
      rcases hround with ⟨hcompletion, hv, -⟩ | ⟨⟨e, hfail⟩, hlate⟩
      · dsimp only at hcompletion hv hgiven
        subst hcompletion
        cases c with
        | normal | broke | cut | failed e | starved call => exact ⟨rfl, .inl ⟨rfl, hv, fun _ => hv⟩⟩
        | continued =>
          obtain ⟨hvalues, hend⟩ := ih hv (by omega)
          exact ⟨congrArg _ hvalues, hend⟩
      -- the first loop fails in its update; the second one fails there as well, or at its next test
      · dsimp only at hfail hgiven
        subst hfail
        rcases hlate with ⟨e', hfail'⟩ | ⟨hcontinued, hlate, hstuck⟩
        · dsimp only at hfail'
          subst hfail'
          exact ⟨rfl, .inr ⟨⟨e, rfl⟩, .inl ⟨e', rfl⟩⟩⟩
        · dsimp only at hcontinued hlate hstuck
          subst hcontinued
          have hlast : l'.roundValues host body' x n v' = [] ∧ _ := rounds_of_failing hstuck (by omega)
          obtain ⟨hnone, hend⟩ := hlast
          refine ⟨congrArg _ hnone, .inr ⟨⟨e, rfl⟩, hend.imp_right fun ⟨hcut, hzero⟩ => ⟨hcut, ?_⟩⟩⟩
          rw [← hlate, hzero]

/-- A loop begins its rounds with the same values, and ends alike. -/
theorem walk_imitates {x : String} (hx : x ∈ live) (hρ : ρ x = x) (htame : body.Tame true)
    (hbody : Behaviour.Alongside ρ known kept live after body body') {w w' : Walk σ}
    (hw : Walk.Alongside ρ known kept live w w') :
    l'.roundValues host body' x (w'.left + 1) w' = l.roundValues host body x (w.left + 1) w ∧
      SameEnd ρ known kept live (l.walk host body w) (l'.walk host body' w') := by
  rw [Loop.walk, Loop.walk, hw.left]
  exact h.rounds_imitate hx hρ htame hbody _ hw (Nat.lt_succ_self _)

end Imitates

end

end Loop

/-! Loops among other statements. -/

section

variable (host : Host σ)

/-- The rounds of a statement that are begun, if it is a loop. -/
def Statement.entered : Statement → Walk σ → List (Round σ)
  | .whileLoop cond body, w => Loop.entered host ⟨none, some cond, none, body⟩ (walkAll host body) (w.left + 1) w
  | .forLoop init cond update body, w =>
    match Loop.initWalk host ⟨init, cond, update, body⟩ w with
    | (.normal, w) => Loop.entered host ⟨init, cond, update, body⟩ (walkAll host body) (w.left + 1) w
    | _ => []
  | _, _ => []

/-- The rounds of the loops among some statements that are begun, those inside other loops apart. -/
def enteredAll : List Statement → Walk σ → List (Round σ)
  | [], _ => []
  | s :: rest, w => s.entered host w ++
    match s.walk host w with
    | (.normal, w) => enteredAll rest w
    | _ => []

/-- The values of a variable with which the rounds of the loops among some statements begin. -/
def roundValuesAll (x : String) (ss : List Statement) (w : Walk σ) : List (Option Value) :=
  (enteredAll host ss w).map (Round.value x)

variable {host}

theorem enteredAll_single (s : Statement) (w : Walk σ) : enteredAll host [s] w = s.entered host w := by
  rw [enteredAll]
  rcases s.walk host w with ⟨c, w'⟩
  cases c <;> exact List.append_nil _

theorem walkAll_single (s : Statement) (w : Walk σ) : walkAll host [s] w = s.walk host w := by
  rw [walkAll, walkAll, Behaviour.andThen]
  rcases s.walk host w with ⟨c, w'⟩
  cases c <;> rfl

end

theorem Statement.forLoop_imitates {host : Host σ} {x : String} {ρ : String → String} {known live after : List String}
    {kept : Store} {init init' : Option Binding} {cond cond' : Option Expr} {update update' : Option Assignment}
    {body body' : List Statement} {a a' : Assignment}
    (h : Loop.Imitates ρ known kept live ⟨init, cond, update, body⟩ ⟨init', cond', update', body'⟩ a a')
    (hinit : Behaviour.Alongside ρ known kept live live (Loop.initWalk host ⟨init, cond, update, body⟩)
      (Loop.initWalk host ⟨init', cond', update', body'⟩))
    (hx : x ∈ live) (hρ : ρ x = x) (htame : (walkAll host body).Tame true)
    (hbody : Behaviour.Alongside ρ known kept live after (walkAll host body) (walkAll host body')) {w w' : Walk σ}
    (hw : Walk.Alongside ρ known kept live w w') :
    ((Statement.forLoop init' cond' update' body').entered host w').map (Round.value x) =
        ((Statement.forLoop init cond update body).entered host w).map (Round.value x) ∧
      SameEnd ρ known kept live ((Statement.forLoop init cond update body).walk host w)
        ((Statement.forLoop init' cond' update' body').walk host w') := by
  have hbegin := hinit w w' hw
  rw [Statement.entered, Statement.entered, Statement.walk, Statement.walk, Behaviour.andThen,
    Behaviour.andThen]
  generalize Loop.initWalk host ⟨init, cond, update, body⟩ w = r at hbegin
  generalize Loop.initWalk host ⟨init', cond', update', body'⟩ w' = r' at hbegin
  obtain ⟨c, u⟩ := r
  obtain ⟨c', u'⟩ := r'
  obtain ⟨hcompletion, hu, -⟩ := hbegin
  dsimp only at hcompletion hu
  subst hcompletion
  cases c with
  | normal => exact h.walk_imitates hx hρ htame hbody hu
  | broke | continued | cut | failed e | starved call => exact ⟨rfl, .inl ⟨rfl, hu, fun _ => hu⟩⟩

/-! Statements before a loop. -/

section

variable {store store' : Store}

mutual

/-- What an expression comes to depends on no other variables than it uses. -/
theorem Expr.dialogue_congr : (e : Expr) → (∀ u ∈ e.uses, store'.get? u.name = store.get? u.name) →
    e.dialogue store' = e.dialogue store
  | .literal v, _ => by rw [Expr.dialogue, Expr.dialogue]
  | .var x, h => by
    have hx : store'.get? x = store.get? x := h (.read x) (List.mem_singleton.2 rfl)
    rw [Expr.dialogue, Expr.dialogue, Store.read, Store.read, hx]
  | .member e field, h => by rw [Expr.dialogue, Expr.dialogue, e.dialogue_congr h]
  | .unary op e, h => by rw [Expr.dialogue, Expr.dialogue, e.dialogue_congr h]
  | .binary op l r, h => by
    have hl := l.dialogue_congr fun u hu => h u (List.mem_append_left _ hu)
    have hr := r.dialogue_congr fun u hu => h u (List.mem_append_right _ hu)
    cases op <;> simp only [Expr.dialogue, hl, hr]
  | .call p args, h => by rw [Expr.dialogue, Expr.dialogue, Expr.dialogueArgs_congr args h]

theorem Expr.dialogueArgs_congr : (es : List Expr) →
    (∀ u ∈ argUses es, store'.get? u.name = store.get? u.name) →
    Expr.dialogueArgs store' es = Expr.dialogueArgs store es
  | [], _ => by rw [Expr.dialogueArgs, Expr.dialogueArgs]
  | e :: rest, h => by
    rw [Expr.dialogueArgs, Expr.dialogueArgs, e.dialogue_congr fun u hu => h u (List.mem_append_left _ hu),
      Expr.dialogueArgs_congr rest fun u hu => h u (List.mem_append_right _ hu)]

end

end

namespace Dialogue

variable {α β : Type}

@[simp] theorem pure_eq (a : α) : (pure a : Dialogue α) = .value a := rfl

@[simp] theorem value_bind (a : α) (f : α → Dialogue β) : Dialogue.value a >>= f = f a := rfl

@[simp] theorem fail_bind (e : Error) (f : α → Dialogue β) : Dialogue.fail e >>= f = .fail e := rfl

@[simp] theorem ofFault_ok (a : α) : ofFault (.ok a) = .value a := rfl

@[simp] theorem ofFault_error (cause : Fault) : (ofFault (.error cause) : Dialogue α) = .fail (.fault cause) := rfl

theorem live_bind {host : Host σ} {x : Dialogue α} {f : α → Dialogue β} {world after : Watched σ}
    {answers later : List Value} {b : β} :
    (x >>= f).live host world answers = (.value b, after, later) ↔ ∃ a between rest,
      x.live host world answers = (.value a, between, rest) ∧
        (f a).live host between rest = (.value b, after, later) := by
  change (x.andThen f).live host world answers = _ ↔ _
  induction x generalizing world answers with
  | value a => exact ⟨fun h => ⟨a, world, answers, rfl, h⟩, by rintro ⟨_, _, _, ⟨⟩, h⟩; exact h⟩
  | fail e => exact ⟨by rintro ⟨⟩, by rintro ⟨_, _, _, ⟨⟩, _⟩⟩
  | ask p args next ih =>
    rw [Dialogue.andThen]
    obtain ⟨g, hg⟩ | ⟨call, hcall⟩ | ⟨cause, hcause⟩ := p.perform_cases host.watched args
    · rw [live_ask_of_onHost hg, live_ask_of_onHost hg]
      exact ih _
    · cases answers with
      | nil =>
        rw [live_ask_of_suspend_nil hcall, live_ask_of_suspend_nil hcall]
        exact ⟨by rintro ⟨⟩, by rintro ⟨_, _, _, ⟨⟩, _⟩⟩
      | cons v answers =>
        rw [live_ask_of_suspend hcall, live_ask_of_suspend hcall]
        exact ih v
    · rw [live_ask_of_fail hcause, live_ask_of_fail hcause]
      exact ⟨by rintro ⟨⟩, by rintro ⟨_, _, _, ⟨⟩, _⟩⟩

end Dialogue

theorem Expr.live_args_cons {host : Host σ} {store : Store} {e : Expr} {rest : List Expr} {world after : Watched σ}
    {answers later : List Value} {v : Value} {vs : List Value} :
    (Expr.dialogueArgs store (e :: rest)).live host world answers = (.value (v :: vs), after, later) ↔
      ∃ between left, (e.dialogue store).live host world answers = (.value v, between, left) ∧
        (Expr.dialogueArgs store rest).live host between left = (.value vs, after, later) := by
  simp only [Expr.dialogueArgs, Dialogue.live_bind, Dialogue.pure_eq, Dialogue.live, Prod.mk.injEq,
    Ending.value.injEq, List.cons.injEq]
  constructor
  · rintro ⟨_, between, left, hhead, _, _, _, htail, ⟨rfl, rfl⟩, rfl, rfl⟩
    exact ⟨between, left, hhead, htail⟩
  · rintro ⟨between, left, hhead, htail⟩
    exact ⟨v, between, left, hhead, vs, after, later, htail, ⟨rfl, rfl⟩, rfl, rfl⟩

/-- Where a run stands, its units apart. -/
structure Place (σ : Type) where
  store : Store
  world : Watched σ
  answers : List Value

def Place.walk (p : Place σ) (left : Nat) (pieces : List Piece) : Walk σ :=
  ⟨p.store, p.world, p.answers, left, pieces⟩

/-- Whether statements lead from one place to another in some number of units, and begin no round of a loop. -/
def Leads (host : Host σ) (ss : List Statement) (p q : Place σ) : Prop :=
  ∃ units, ∀ rest left pieces, ∃ done,
    walkAll host (ss ++ rest) (p.walk (units + left) pieces) = walkAll host rest (q.walk left done) ∧
      enteredAll host (ss ++ rest) (p.walk (units + left) pieces) = enteredAll host rest (q.walk left done)

namespace Leads

variable {host : Host σ} {ss ts : List Statement} {p q r : Place σ}

theorem append (h : Leads host ss p q) (h' : Leads host ts q r) : Leads host (ss ++ ts) p r := by
  obtain ⟨units, h⟩ := h
  obtain ⟨units', h'⟩ := h'
  refine ⟨units + units', fun rest left pieces => ?_⟩
  obtain ⟨between, hwalk, hrounds⟩ := h (ts ++ rest) (units' + left) pieces
  obtain ⟨done, hwalk', hrounds'⟩ := h' rest left between
  rw [List.append_assoc, Nat.add_assoc]
  exact ⟨done, hwalk.trans hwalk', hrounds.trans hrounds'⟩

theorem single {s : Statement} (units : Nat)
    (hwalk : ∀ left pieces, ∃ done, s.walk host (p.walk (units + left) pieces) = (.normal, q.walk left done))
    (hnone : ∀ w, s.entered host w = []) : Leads host [s] p q := by
  refine ⟨units, fun rest left pieces => ?_⟩
  obtain ⟨done, hdone⟩ := hwalk left pieces
  refine ⟨done, ?_, ?_⟩
  · rw [List.singleton_append, walkAll, Behaviour.andThen, hdone]
  · rw [List.singleton_append, enteredAll, hdone, hnone, List.nil_append]

variable {store changed : Store} {world after : Watched σ} {answers later : List Value}

theorem bind {b : Binding} (h : (b.dialogue store).live host world answers = (.value changed, after, later)) :
    Leads host [.bind b] ⟨store, world, answers⟩ ⟨changed, after, later⟩ := by
  refine single 1 (fun left pieces => ⟨pieces ++ [.statement (.bind b)], ?_⟩) fun _ => rfl
  rw [Nat.add_comm]
  simp only [Statement.walk, Behaviour.storing, Behaviour.unit, Place.walk, h]

theorem guard {cond : Expr} {b : Binding} {value : Value} (hcond : cond.dialogue store = .value value)
    (hb : b.dialogue store = .value changed) : Leads host [.branch [(cond, [.bind b])] none]
      ⟨store, world, answers⟩ ⟨if value.truthy then changed else store, world, answers⟩ := by
  have hchoice : choiceWalk host store (otherwiseWalk host none) [(cond, [.bind b])] =
      .value (if value.truthy then walkAll host [.bind b] else Behaviour.done) := by
    rw [choiceWalk, hcond]
    change (if value.truthy = true then .value (walkAll host [.bind b])
      else choiceWalk host store (otherwiseWalk host none) []) = _
    rw [choiceWalk, otherwiseWalk]
    cases value.truthy <;> rfl
  refine single (if value.truthy then 2 else 1) (fun left pieces => ?_) fun _ => rfl
  rw [Nat.add_comm]
  cases hv : value.truthy with
  | false =>
    rw [hv] at hchoice
    simp only [Statement.walk, Behaviour.unit, Place.walk, hchoice]
    exact ⟨_, rfl⟩
  | true =>
    rw [hv] at hchoice
    simp only [Statement.walk, Behaviour.unit, Place.walk, hchoice, if_pos, Dialogue.live, walkAll_single, id,
      Behaviour.storing, hb]
    exact ⟨_, rfl⟩

end Leads

/-! Runs with more and more units. -/

section

variable {host : Host σ} {ss ss' : List Statement} {p p' : Place σ} {x : String}

/-- Whether statements come to an end of some kind, if they have enough units. -/
def ComesTo (host : Host σ) (ss : List Statement) (p : Place σ) (P : Completion → Prop) : Prop :=
  ∃ left, P (walkAll host ss (p.walk left [])).1

/-- Whether two scripts go round alike: the one begins its rounds with the same values of a variable as the other
one, some units later, and comes to its end or fails just if the other one does. -/
structure SameRounds (host : Host σ) (x : String) (ss ss' : List Statement) (p p' : Place σ) : Prop where
  values : ∃ setup, ∀ left, roundValuesAll host x ss' (p'.walk (setup + left) []) =
    roundValuesAll host x ss (p.walk left [])
  done : ComesTo host ss' p' (· = .normal) ↔ ComesTo host ss p (· = .normal)
  failed : ComesTo host ss' p' (∃ e, · = .failed e) ↔ ComesTo host ss p (∃ e, · = .failed e)

theorem comesTo_iff (h : placedAll false ss = true) {P : Completion → Prop} (hcut : ¬P .cut) (setup : Nat) :
    ComesTo host ss p P ↔ ∃ left, P (walkAll host ss (p.walk (setup + left) [])).1 := by
  refine ⟨fun ⟨left, hend⟩ => ⟨left, ?_⟩, fun ⟨left, hend⟩ => ⟨_, hend⟩⟩
  have hmore := walkAll_more h (p.walk left []) setup fun hc => hcut (hc ▸ hend)
  rw [Nat.add_comm]
  exact (congrArg Prod.fst hmore).symm ▸ hend

/-- Scripts that end alike with every number of units come to the same ends. -/
theorem comesTo_of_sameEnd (h : placedAll false ss = true) (h' : placedAll false ss' = true) {setup : Nat}
    {ρ : String → String} {known live : List String} {kept : Store}
    (hsame : ∀ left, SameEnd ρ known kept live (walkAll host ss (p.walk left []))
      (walkAll host ss' (p'.walk (setup + left) []))) :
    (ComesTo host ss' p' (· = .normal) ↔ ComesTo host ss p (· = .normal)) ∧
      (ComesTo host ss' p' (∃ e, · = .failed e) ↔ ComesTo host ss p (∃ e, · = .failed e)) := by
  constructor
  · rw [comesTo_iff h' (by rintro ⟨⟩) setup]
    refine exists_congr fun left => ?_
    rcases hsame left with hend | ⟨⟨e, he⟩, ⟨e', he'⟩ | ⟨he', -⟩⟩
    · rw [hend.completion]
      cases (walkAll host ss (p.walk left [])).1 <;> simp [Completion.rename]
    · simp [he, he']
    · simp [he, he']
  · rw [comesTo_iff h' (by rintro ⟨e, ⟨⟩⟩) setup]
    constructor
    · rintro ⟨left, e', he'⟩
      refine ⟨left, ?_⟩
      rcases hsame left with hend | ⟨hfail, -⟩
      · rw [hend.completion] at he'
        cases hc : (walkAll host ss (p.walk left [])).1 with
        | failed e => exact ⟨e, rfl⟩
        | normal | broke | continued | cut | starved call =>
          rw [hc] at he'
          cases he'
      · exact hfail
    · -- one run may fail a unit later than the other, so it is given two more
      rintro ⟨left, e, he⟩
      have hmore : walkAll host ss (p.walk (left + 2) []) = _ :=
        walkAll_more h (p.walk left []) 2 (by rw [he]; rintro ⟨⟩)
      refine ⟨left + 2, ?_⟩
      rcases hsame (left + 2) with hend | ⟨-, hfail | ⟨-, hone⟩⟩
      · rw [hend.completion, hmore, he]
        exact ⟨_, rfl⟩
      · exact hfail
      · rw [hmore] at hone
        exact absurd hone (by simp)

/-- Two loops that begin their rounds with the same values and end alike go round alike, and so do they if the one
has some statements before it. -/
theorem Leads.sameRounds {s s' : Statement} {before : List Statement} {q : Place σ} {ρ : String → String}
    {known live : List String} {kept : Store} (hleads : Leads host before p' q)
    (hq : ∀ left done, Walk.Alongside ρ known kept live (p.walk left []) (q.walk left done))
    (h : placedAll false [s] = true) (h' : placedAll false (before ++ [s']) = true)
    (hloop : ∀ w w', Walk.Alongside ρ known kept live w w' →
      (s'.entered host w').map (Round.value x) = (s.entered host w).map (Round.value x) ∧
        SameEnd ρ known kept live (s.walk host w) (s'.walk host w')) :
    SameRounds host x [s] (before ++ [s']) p p' := by
  obtain ⟨units, hleads⟩ := hleads
  have hsame (left : Nat) : SameEnd ρ known kept live (walkAll host [s] (p.walk left []))
      (walkAll host (before ++ [s']) (p'.walk (units + left) [])) := by
    obtain ⟨done, hwalk, -⟩ := hleads [s'] left []
    rw [hwalk, walkAll_single, walkAll_single]
    exact (hloop _ _ (hq left done)).2
  have hends := comesTo_of_sameEnd h h' hsame
  refine ⟨⟨units, fun left => ?_⟩, hends.1, hends.2⟩
  obtain ⟨done, -, hrounds⟩ := hleads [s'] left []
  rw [roundValuesAll, roundValuesAll, hrounds, enteredAll_single, enteredAll_single]
  exact (hloop _ _ (hq left done)).1

end

end ScopeBlocks.Script
