import ScopeBlocks.Proofs.Script.LoopRounds

/-! Loops that count their rounds in a variable of their own. A body that leaves that variable alone is entered as
often as the loop is to go round, unless the body itself leaves the loop, or the run is cut off. Between two rounds,
the host and the answers are handed on as the body has left them. -/
namespace ScopeBlocks.Script

variable {σ : Type}

/-! How a counted loop ends. -/

/-- Whether the loop goes on after a round, to its update and its next test. -/
def Round.GoesOn (r : Round σ) : Prop := r.ended = .normal ∨ r.ended = .continued

/-- The units that are done in a round by the body. -/
def Round.spent (r : Round σ) : Nat := r.entry.left - r.exit.left

/-- The units that are done in rounds by their bodies. -/
def spentIn : List (Round σ) → Nat
  | [] => 0
  | r :: rs => r.spent + spentIn rs

/-- What a loop comes to when its body leaves it. -/
def Completion.outside : Completion → Completion
  | .broke => .normal
  | ended => ended

/-- Whether a loop that is to go round some times has done so, with as many units as it has been given for it. The
body may have left it before, and the run may have been cut off in the clauses of the loop, of which each round has
two, when the units were used up. -/
inductive Counted (times units : Nat) (rs : List (Round σ)) : Completion × Walk σ → Prop
  | exactly (w : Walk σ) (length : rs.length = times) (goOn : ∀ r ∈ rs, r.GoesOn) :
    Counted times units rs (.normal, w)
  | left (earlier : List (Round σ)) (last : Round σ) (split : rs = earlier ++ [last])
    (length : rs.length ≤ times) (goOn : ∀ r ∈ earlier, r.GoesOn) (leaves : ¬last.GoesOn) :
    Counted times units rs (last.ended.outside, last.exit)
  | cut (w : Walk σ) (length : rs.length ≤ times) (goOn : ∀ r ∈ rs, r.GoesOn)
    (short : units ≤ 2 * rs.length + spentIn rs) : Counted times units rs (.cut, w)

/-- Whether each round begins where the one before it has left the host and the answers, the first one in a given
state, and the loop ends as the last one has left them. -/
def Handed : Watched σ × List Value → List (Round σ) → Watched σ × List Value → Prop
  | first, [], last => last = first
  | first, r :: rs, last => (r.entry.world, r.entry.answers) = first ∧ Handed (r.exit.world, r.exit.answers) rs last

namespace Counted

variable {times units : Nat} {r : Round σ} {rs : List (Round σ)} {result : Completion × Walk σ}

theorem cons {more : Nat} (h : Counted times units rs result) (hr : r.GoesOn)
    (hunits : more ≤ units + 2 + r.spent) : Counted (times + 1) more (r :: rs) result := by
  cases h with
  | exactly w length goOn => exact .exactly w (congrArg (· + 1) length) (List.forall_mem_cons.2 ⟨hr, goOn⟩)
  | left earlier last split length goOn leaves =>
    exact .left (r :: earlier) last (congrArg (r :: ·) split) (Nat.succ_le_succ length)
      (List.forall_mem_cons.2 ⟨hr, goOn⟩) leaves
  | cut w length goOn short =>
    refine .cut w (Nat.succ_le_succ length) (List.forall_mem_cons.2 ⟨hr, goOn⟩) ?_
    rw [List.length_cons, spentIn]
    omega

theorem fewer {less : Nat} (h : Counted times units rs result) (hunits : less ≤ units) :
    Counted times less rs result := by
  cases h with
  | exactly w length goOn => exact .exactly w length goOn
  | left earlier last split length goOn leaves => exact .left earlier last split length goOn leaves
  | cut w length goOn short => exact .cut w length goOn (Nat.le_trans hunits short)

theorem leaving (hr : ¬r.GoesOn) (htimes : 0 < times) :
    Counted times units [r] (r.ended.outside, r.exit) :=
  .left [] r rfl htimes (by rintro _ ⟨⟩) hr

end Counted

/-! Counting. -/

namespace Loop

/-- Whether a loop counts its rounds up to a number of them. What says how many there have been is kept by the body,
and is true of one more after each update. -/
structure Counts (l : Loop) (x : Behaviour σ) (times : Nat) (so : Nat → Store → Prop) : Prop where
  test : ∀ k store, so k store → k ≤ times → l.testDialogue store = .value (decide (k < times))
  update : ∃ a, l.update = some a ∧ ∀ k store, so k store → k < times →
    ∃ changed, a.dialogue store = .value changed ∧ so (k + 1) changed
  body : ∀ k w, so k w.store → so k (x w).2.store
  tame : x.Tame true

variable {host : Host σ} {l : Loop} {body : Behaviour σ} {times : Nat} {so : Nat → Store → Prop}

theorem testWalk_of_value {w : Walk σ} {goesOn : Bool} (hleft : w.left ≠ 0)
    (h : l.testDialogue w.store = .value goesOn) : ∃ u : Walk σ,
      l.testWalk host w = (if goesOn then .continued else .normal, u) ∧ u.store = w.store ∧
        u.world = w.world ∧ u.answers = w.answers ∧ u.left + 1 = w.left := by
  obtain ⟨left, hleft⟩ := Nat.exists_eq_succ_of_ne_zero hleft
  refine ⟨{ w with left, pieces := w.pieces ++ [.test l.cond] }, ?_, rfl, rfl, rfl, hleft.symm⟩
  simp only [testWalk, Behaviour.unit, hleft, h, Dialogue.live]

variable (host) in
theorem updateWalk_of_value {w : Walk σ} {a : Assignment} {changed : Store} (hupdate : l.update = some a)
    (hleft : w.left ≠ 0) (h : a.dialogue w.store = .value changed) : ∃ u : Walk σ,
      l.updateWalk host w = (.normal, u) ∧ u.store = changed ∧ u.world = w.world ∧
        u.answers = w.answers ∧ u.left + 1 = w.left := by
  obtain ⟨left, hleft⟩ := Nat.exists_eq_succ_of_ne_zero hleft
  refine ⟨{ w with store := changed, left, pieces := w.pieces ++ [.update a] }, ?_, rfl, rfl, rfl, hleft.symm⟩
  simp only [updateWalk, hupdate, Behaviour.storing, Behaviour.unit, hleft, h, Dialogue.live]

theorem updateWalk_of_left {w : Walk σ} {a : Assignment} (hupdate : l.update = some a) (hleft : w.left = 0) :
    l.updateWalk host w = (.cut, w) := by
  unfold updateWalk
  rw [hupdate]
  exact Behaviour.unit_of_left hleft

variable (host l) in
theorem roundWalk_of_leaves {u : Walk σ} (h : ¬(Round.of body u).GoesOn) :
    l.roundWalk host body u = ((Round.of body u).ended.outside, (Round.of body u).exit) := by
  unfold roundWalk Behaviour.before
  unfold Round.GoesOn Round.of at *
  generalize body u = r at h
  obtain ⟨c, v⟩ := r
  cases c with
  | normal => exact absurd (.inl rfl) h
  | continued => exact absurd (.inr rfl) h
  | broke | cut | failed e | starved call => rfl

variable (host l) in
theorem roundWalk_of_goesOn {u : Walk σ} (h : (Round.of body u).GoesOn) : l.roundWalk host body u =
    ((l.updateWalk host).andThen fun w => (.continued, w)) (Round.of body u).exit := by
  unfold roundWalk Behaviour.before
  unfold Round.GoesOn Round.of at *
  generalize body u = r at h
  obtain ⟨c, v⟩ := r
  rcases h with hc | hc <;> (dsimp only at hc; subst hc; rfl)

namespace Counts

variable (h : l.Counts body times so)

include h

/-- After some rounds, as many follow as are missing. -/
theorem rounds (n k : Nat) (w : Walk σ) (hso : so k w.store) (hk : k ≤ times) (hn : w.left < n) :
    Counted (times - k) w.left (l.entered host body n w) (l.rounds host body n w) ∧
      Handed (w.world, w.answers) (l.entered host body n w)
        ((l.rounds host body n w).2.world, (l.rounds host body n w).2.answers) := by
  induction n generalizing k w with
  | zero => exact absurd hn (Nat.not_lt_zero _)
  | succ n ih =>
    rw [rounds_succ, entered]
    by_cases hleft : w.left = 0
    · rw [testWalk_of_left host l hleft, hleft]
      exact ⟨.cut w (Nat.zero_le _) (by rintro _ ⟨⟩) (Nat.zero_le _), rfl⟩
    obtain ⟨u, htest, hstore, hworld, hanswers, hunits⟩ :=
      testWalk_of_value hleft (h.test k w.store hso hk)
    rw [htest, ← hworld, ← hanswers]
    rcases Nat.lt_or_eq_of_le hk with hlt | rfl
    · rw [decide_eq_true hlt, if_pos rfl]
      dsimp only
      generalize hround : Round.of body u = r
      have hkept : so k r.exit.store := hround ▸ h.body k u (hstore ▸ hso)
      have hgiven : r.exit.left ≤ u.left := hround ▸ (h.tame u).1
      have hspent : r.spent = u.left - r.exit.left := hround ▸ rfl
      have hentry : (r.entry.world, r.entry.answers) = (u.world, u.answers) := hround ▸ rfl
      obtain ⟨missing, hmissing⟩ : ∃ missing, times - k = missing + 1 := ⟨times - k - 1, by omega⟩
      rw [hmissing]
      by_cases hr : r.GoesOn
      · have hwalk := roundWalk_of_goesOn host l (hround ▸ hr)
        obtain ⟨a, hupdate, hchange⟩ := h.update
        obtain ⟨changed, hdialogue, hnext⟩ := hchange k _ hkept hlt
        -- the update takes a unit of its own, and the body may have used the last one
        by_cases hend : r.exit.left = 0
        · rw [hwalk, Behaviour.andThen, hround, updateWalk_of_left hupdate hend]
          refine ⟨.cut _ (Nat.le_add_left 1 _) (by simpa using hr) ?_, hentry, rfl⟩
          rw [List.length_singleton, spentIn, spentIn]
          omega
        · obtain ⟨v, hv, rfl, hworld', hanswers', hunits'⟩ := updateWalk_of_value host hupdate hend hdialogue
          obtain ⟨hcounted, hhanded⟩ := ih (k + 1) v hnext hlt (by omega)
          rw [hwalk, Behaviour.andThen, hround, hv]
          rw [hworld', hanswers'] at hhanded
          have hrest : times - (k + 1) = missing := by omega
          rw [hrest] at hcounted
          exact ⟨hcounted.cons hr (by omega), hentry, hhanded⟩
      · have hwalk := roundWalk_of_leaves host l (hround ▸ hr)
        rw [hround] at hwalk
        have hleaving : Counted (missing + 1) w.left [r] (r.ended.outside, r.exit) :=
          .leaving hr (Nat.succ_pos _)
        rw [hwalk]
        obtain ⟨entry, ended, exit⟩ := r
        cases ended with
        | normal => exact absurd (.inl rfl) hr
        | continued => exact absurd (.inr rfl) hr
        | broke | cut | failed e | starved call => exact ⟨hleaving, hentry, rfl⟩
    · rw [decide_eq_false (Nat.lt_irrefl _), Nat.sub_self]
      exact ⟨.exactly _ rfl (by rintro _ ⟨⟩), rfl⟩

end Counts

end Loop

/-- A loop that counts from its first clause on goes round as often as it is to. -/
theorem Statement.forLoop_counted {host : Host σ} {b : Binding} {cond : Option Expr} {update : Option Assignment}
    {body : List Statement} {times : Nat} {so : Nat → Store → Prop}
    (h : Loop.Counts ⟨some b, cond, update, body⟩ (walkAll host body) times so) {w : Walk σ} {store : Store}
    (hinit : b.dialogue w.store = .value store) (hso : so 0 store) :
    let s := Statement.forLoop (some b) cond update body
    Counted times (w.left - 1) (s.entered host w) (s.walk host w) ∧
      Handed (w.world, w.answers) (s.entered host w) ((s.walk host w).2.world, (s.walk host w).2.answers) := by
  intro s
  unfold s
  rw [Statement.entered, Statement.walk, Behaviour.andThen]
  obtain ⟨start, world, answers, left, pieces⟩ := w
  dsimp only at hinit ⊢
  cases left with
  | zero =>
    have hcut : Loop.initWalk host ⟨some b, cond, update, body⟩ ⟨start, world, answers, 0, pieces⟩ =
        (.cut, ⟨start, world, answers, 0, pieces⟩) := rfl
    rw [hcut]
    exact ⟨.cut _ (Nat.zero_le _) (by rintro _ ⟨⟩) (Nat.zero_le _), rfl⟩
  | succ left =>
    have hbegin : Loop.initWalk host ⟨some b, cond, update, body⟩ ⟨start, world, answers, left + 1, pieces⟩ =
        (.normal, ⟨store, world, answers, left, pieces ++ [.init b]⟩) := by
      simp only [Loop.initWalk, Behaviour.storing, Behaviour.unit, hinit, Dialogue.live]
    rw [hbegin]
    exact h.rounds (left + 1) 0 ⟨store, world, answers, left, pieces ++ [.init b]⟩ hso (Nat.zero_le _)
      (Nat.lt_succ_self left)

end ScopeBlocks.Script
