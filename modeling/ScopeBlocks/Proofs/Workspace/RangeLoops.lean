import Mathlib.Order.Compare
import ScopeBlocks.Proofs.Script.LoopRounds
import ScopeBlocks.Proofs.Workspace.RenamedScript

/-! Counting loops over numbers and over computed bounds. The one is written for the direction in which its
bounds lie, the other one finds it out before it begins. Both count alike, unless the step is zero: a zero has
no sign to tell the direction by. -/
namespace ScopeBlocks

open Script (BinaryOp Dialogue Host Leads Store Value Walk Watched)

/-! Numbers. -/

namespace Number

theorem dialogue_tree {x : Number} (h : x.isFinite = true) (store : Store) :
    x.tree.dialogue store = .value (.number x.plain) := by
  cases x with
  | nan => cases h
  | infinite => cases h
  | finite negative k hk =>
    unfold Number.tree
    dsimp only
    cases k with
    | zero =>
      rw [if_neg (by simp)]
      rfl
    | succ k => cases negative <;> rfl

/-- A step in the direction in which two bounds lie. -/
def toward (start stop step : Number) : Number := if start.le stop then step.abs else step.abs.neg

variable {x y z : Number}

theorem plain_abs (h : x.isFinite = true) : x.abs.plain = x.abs := by
  cases x with
  | nan | infinite => cases h
  | finite negative k hk => cases k <;> rfl

theorem compare?_plain (hx : x.isFinite = true) (hy : y.isFinite = true) :
    x.plain.compare? y.plain = x.compare? y := by
  cases x with
  | nan | infinite => cases hx
  | finite s k hk =>
    cases y with
    | nan | infinite => cases hy
    | finite t m hm => cases k <;> cases m <;> cases s <;> cases t <;> rfl

theorem compare?_zero (negative : Bool) {k : Nat} (hk : Representable k) :
    (finite negative k hk).compare? 0 = some (compare (signed negative k) 0) := by
  rw [show (0 : Number) = .zero from ofNat_zero]
  rfl

theorem compare?_zero_sign (negative : Bool) {k : Nat} (hk : Representable k) (h : k ≠ 0) :
    (finite negative k hk).compare? 0 = some (if negative then .lt else .gt) := by
  rw [compare?_zero]
  cases negative with
  | false => exact congrArg some (compare_gt_iff_gt.2 (by simp [signed]; omega))
  | true => exact congrArg some (compare_lt_iff_lt.2 (by simp [signed]; omega))

theorem abs_eq_ite (h : x.isFinite = true) :
    (if (x.plain.compare? 0).any Ordering.isLT then x.plain.neg else x.plain) = x.abs := by
  cases x with
  | nan | infinite => cases h
  | finite negative k hk =>
    cases k with
    | zero =>
      have hplain : (finite negative 0 hk).plain = finite false 0 hk := rfl
      simp only [hplain, compare?_zero]
      rfl
    | succ k =>
      have hplain : (finite negative (k + 1) hk).plain = finite negative (k + 1) hk := rfl
      simp only [hplain, compare?_zero_sign _ _ (Nat.succ_ne_zero k)]
      cases negative <;> rfl

theorem any_isGT (hx : x.isFinite = true) (hy : y.isFinite = true) :
    (x.plain.compare? y.plain).any Ordering.isGT = !x.le y := by
  rw [compare?_plain hx hy, le]
  cases x with
  | nan | infinite => cases hx
  | finite s k hk =>
    cases y with
    | nan | infinite => cases hy
    | finite t m hm =>
      rw [compare?]
      dsimp only [Option.any]
      cases compare (signed s k) (signed t m) <;> rfl

theorem equals_zero {k : Nat} (negative : Bool) (hk : Representable k) : (finite negative k hk).equals 0 = decide (k = 0) := by
  unfold equals
  cases k with
  | zero => rw [compare?_zero]; cases negative <;> rfl
  | succ k =>
    rw [compare?_zero_sign _ _ (Nat.succ_ne_zero k)]; cases negative <;> rfl

theorem toward_sign (hz : z.isFinite = true) (h : x.le y = true ∨ z.equals 0 = false) :
    ((toward x y z).compare? 0).any Ordering.isGE = x.le y ∧
      ((toward x y z).compare? 0).any Ordering.isLT = !x.le y := by
  cases z with
  | nan | infinite => cases hz
  | finite s k hk =>
    rw [equals_zero] at h
    unfold toward
    cases hle : x.le y with
    | true =>
      rw [if_pos rfl, abs]
      cases k with
      | zero => rw [compare?_zero]; exact ⟨rfl, rfl⟩
      | succ k => rw [compare?_zero_sign _ _ (Nat.succ_ne_zero k)]; exact ⟨rfl, rfl⟩
    | false =>
      rw [hle] at h
      have hk0 : k ≠ 0 := by simpa using h
      rw [if_neg Bool.false_ne_true, abs, neg, compare?_zero_sign _ _ hk0]; exact ⟨rfl, rfl⟩

end Number

/-! Computed bounds. -/

section

variable {σ : Type} {host : Host σ} {store : Store} {s e i : String} {x y z : Number}

theorem live_declare {t : Script.Expr} {v : Value} {world after : Watched σ} {answers later : List Value}
    (h : (t.dialogue store).live host world answers = (.value v, after, later)) (name : String) :
    ((declaration name t).dialogue store).live host world answers = (.value (store.define name v), after, later) :=
  Dialogue.live_bind.2 ⟨v, after, later, h, rfl⟩

/-- The statement that turns a step round, if a condition holds. -/
def turnTree (cond : Script.Expr) (step : String) : Script.Statement :=
  .branch [(cond, [.bind (.assign (setTo step (.unary .neg (.var step))))])] none

variable (host) in
theorem leads_turn {cond : Script.Expr} {turned : Bool} (hstep : store.get? i = some (.number z))
    (hcond : cond.dialogue store = .value (.bool turned)) (world : Watched σ) (answers : List Value) :
    ∃ kept, kept.get? i = some (.number (if turned then z.neg else z)) ∧
      (∀ v, v ≠ i → kept.get? v = store.get? v) ∧
        Leads host [turnTree cond i] ⟨store, world, answers⟩ ⟨kept, world, answers⟩ := by
  have hflip : (Script.Binding.assign (setTo i (.unary .neg (.var i)))).dialogue store =
      .value (store.define i (.number z.neg)) := by
    simp [Script.Binding.dialogue, Script.Assignment.dialogue, setTo, Script.Expr.dialogue, Store.read, hstep,
      Script.UnaryOp.apply, Store.assign, Store.define]
  refine ⟨_, ?_, fun v hv => ?_, .guard hcond hflip⟩
  · cases turned with
    | false => exact hstep
    | true => exact (Dict.get?_insert _ _ _ _).trans (if_pos rfl)
  · cases turned with
    | false => rfl
    | true => exact (Dict.get?_insert _ _ _ _).trans (if_neg hv)

/-- What a loop over computed bounds has at hand: the bounds, and the step in the direction in which they lie. -/
structure Ready (s e i : String) (x y z : Number) (store kept : Store) : Prop where
  start : kept.get? s = some (.number x.plain)
  stop : kept.get? e = some (.number y.plain)
  step : kept.get? i = some (.number (.toward x y z))
  beside : ∀ v, v ∉ [s, e, i] → kept.get? v = store.get? v

/-- The statements before a loop over computed bounds make it ready. -/
theorem leads_setup (hnodup : [s, e, i].Nodup) {t₁ t₂ t₃ : Script.Expr}
    (hstop : ∀ u ∈ t₂.uses, u.name ≠ s) (hstep : ∀ u ∈ t₃.uses, u.name ≠ s ∧ u.name ≠ e)
    (hx : x.isFinite = true) (hy : y.isFinite = true) (hz : z.isFinite = true)
    {world after : Watched σ} {answers later : List Value}
    (hvalues : (Script.Expr.dialogueArgs store [t₁, t₂, t₃]).live host world answers =
      (.value [.number x.plain, .number y.plain, .number z.plain], after, later)) :
    ∃ kept, Ready s e i x y z store kept ∧
      Leads host (rangeSetupTree s e i t₁ t₂ t₃) ⟨store, world, answers⟩ ⟨kept, after, later⟩ := by
  obtain ⟨w₁, a₁, h₁, hrest⟩ := Script.Expr.live_args_cons.1 hvalues
  obtain ⟨w₂, a₂, h₂, hrest⟩ := Script.Expr.live_args_cons.1 hrest
  obtain ⟨w₃, a₃, h₃, hrest⟩ := Script.Expr.live_args_cons.1 hrest
  obtain ⟨rfl, rfl⟩ : w₃ = after ∧ a₃ = later := by
    simpa [Script.Expr.dialogueArgs, Dialogue.live] using hrest
  obtain ⟨⟨hse, hsi⟩, hei⟩ : (s ≠ e ∧ s ≠ i) ∧ e ≠ i := by simpa using hnodup
  let st₁ := store.define s (.number x.plain)
  let st₂ := st₁.define e (.number y.plain)
  let st₃ := st₂.define i (.number z.plain)
  have hget₁ (v : String) : st₁.get? v = if v = s then some (.number x.plain) else store.get? v :=
    Dict.get?_insert _ _ _ _
  have hget₂ (v : String) : st₂.get? v = if v = e then some (.number y.plain) else st₁.get? v :=
    Dict.get?_insert _ _ _ _
  have hget₃ (v : String) : st₃.get? v = if v = i then some (.number z.plain) else st₂.get? v :=
    Dict.get?_insert _ _ _ _
  -- no bound reads a helper that is declared before it is computed
  have hstop' : t₂.dialogue st₁ = t₂.dialogue store :=
    Script.Expr.dialogue_congr t₂ fun u hu => by rw [hget₁, if_neg (hstop u hu)]
  have hstep' : t₃.dialogue st₂ = t₃.dialogue store :=
    Script.Expr.dialogue_congr t₃ fun u hu => by
      rw [hget₂, if_neg (hstep u hu).2, hget₁, if_neg (hstep u hu).1]
  rw [← hstop'] at h₂
  rw [← hstep'] at h₃
  have hbelow : (Script.Expr.binary .lt (.var i) (.literal (.number 0))).dialogue st₃ =
      .value (.bool ((z.plain.compare? 0).any Ordering.isLT)) := by
    simp [Script.Expr.dialogue, Store.read, hget₃, BinaryOp.apply, Value.compareBy]
  obtain ⟨st₄, hstep₄, hget₄, h₄⟩ := leads_turn host ((hget₃ i).trans (if_pos rfl)) hbelow w₃ a₃
  rw [Number.abs_eq_ite hz] at hstep₄
  have hbounds (v : String) (hv : v ≠ i) : st₄.get? v = st₂.get? v := by rw [hget₄ v hv, hget₃, if_neg hv]
  have hs₄ : st₄.get? s = some (.number x.plain) := by
    rw [hbounds s hsi, hget₂, if_neg hse, hget₁, if_pos rfl]
  have he₄ : st₄.get? e = some (.number y.plain) := by rw [hbounds e hei, hget₂, if_pos rfl]
  have hdown : (Script.Expr.binary .gt (.var s) (.var e)).dialogue st₄ = .value (.bool !x.le y) := by
    rw [← Number.any_isGT hx hy]
    simp [Script.Expr.dialogue, Store.read, hs₄, he₄, BinaryOp.apply, Value.compareBy]
  obtain ⟨st₅, hstep₅, hget₅, h₅⟩ := leads_turn host hstep₄ hdown w₃ a₃
  refine ⟨st₅, ⟨?_, ?_, ?_, fun v hv => ?_⟩, ?_⟩
  · rw [hget₅ s hsi, hs₄]
  · rw [hget₅ e hei, he₄]
  · rw [hstep₅, Number.toward]
    cases x.le y <;> rfl
  · obtain ⟨hvs, hve, hvi⟩ : v ≠ s ∧ v ≠ e ∧ v ≠ i := by simpa using hv
    rw [hget₅ v hvi, hbounds v hvi, hget₂, if_neg hve, hget₁, if_neg hvs]
  · exact .append (.bind (live_declare h₁ s)) (.append (.bind (live_declare h₂ e))
      (.append (.bind (live_declare h₃ i)) (.append h₄ h₅)))

/-! Rounds. -/

def boundTest (op : BinaryOp) (r : Except Script.Fault Value) (bound : Number) : Dialogue Bool := do
  let v ← .ofFault r
  let b ← .ofFault (op.apply v (.number bound))
  return b.truthy

/-- The comparison that holds until a loop has passed its end. -/
def direction (x y : Number) : BinaryOp := if x.le y then .le else .ge

variable {ident : String} {body body' : List Script.Statement}

theorem rangeTree_eq (ident : String) (x y z : Number) (body : List Script.Statement) :
    rangeTree ident x y z body = .forLoop (some (.assign (setTo ident x.tree)))
      (some (.binary (direction x y) (.var ident) y.tree))
      (some ⟨ident, if x.le y then .add else .sub, z.abs.tree⟩) body := by
  unfold rangeTree direction
  cases x.le y <;> rfl

theorem range_test (hy : y.isFinite = true) (l : Script.Loop)
    (hl : l.cond = some (.binary (direction x y) (.var ident) y.tree)) (store : Store) :
    l.testDialogue store = boundTest (direction x y) (store.read ident) y.plain := by
  unfold Script.Loop.testDialogue boundTest
  rw [hl]
  unfold direction
  cases x.le y <;> simp only [Bool.false_eq_true, if_true, if_false, Script.Expr.dialogue, Number.dialogue_tree hy] <;>
    cases store.read ident <;> simp

theorem dialogue_and (l r : Script.Expr) : (Script.Expr.binary .and l r).dialogue store = do
    if (← l.dialogue store).truthy then return .bool (← r.dialogue store).truthy
    else return .bool false := by rw [Script.Expr.dialogue]

theorem dialogue_or (l r : Script.Expr) : (Script.Expr.binary .or l r).dialogue store = do
    if (← l.dialogue store).truthy then return .bool true
    else return .bool (← r.dialogue store).truthy := by rw [Script.Expr.dialogue]

theorem computed_test (hz : z.isFinite = true) (hdirection : x.le y = true ∨ z.equals 0 = false)
    (l : Script.Loop)
    (hl : l.cond = some (.binary .or
      (.binary .and (.binary .ge (.var i) (.literal (.number 0))) (.binary .le (.var ident) (.var e)))
      (.binary .and (.binary .lt (.var i) (.literal (.number 0))) (.binary .ge (.var ident) (.var e)))))
    (hstop : store.get? e = some (.number y.plain)) (hstep : store.get? i = some (.number (.toward x y z))) :
    l.testDialogue store = boundTest (direction x y) (store.read ident) y.plain := by
  obtain ⟨hup, hdown⟩ := Number.toward_sign hz hdirection
  have hforward : (Script.Expr.binary .ge (.var i) (.literal (.number 0))).dialogue store =
      .value (.bool (x.le y)) := by
    simp [Script.Expr.dialogue, Store.read, hstep, BinaryOp.apply, Value.compareBy, hup]
  have hback : (Script.Expr.binary .lt (.var i) (.literal (.number 0))).dialogue store =
      .value (.bool !x.le y) := by
    simp [Script.Expr.dialogue, Store.read, hstep, BinaryOp.apply, Value.compareBy, hdown]
  have hread : store.read e = .ok (.number y.plain) := by rw [Store.read, hstop]
  have htruthy (b : Bool) : (Value.bool b).truthy = b := rfl
  unfold Script.Loop.testDialogue boundTest
  rw [hl]
  dsimp only
  rw [dialogue_or, dialogue_and, dialogue_and, hforward, hback]
  -- of the two comparisons only that in the direction of the loop is made
  unfold direction
  cases x.le y
  all_goals
    simp only [Dialogue.value_bind, htruthy, if_true, Bool.not_true, Bool.not_false, Bool.false_eq_true, if_false,
      Script.Expr.dialogue, hread]
    rcases store.read ident with _ | v
    · rfl
    · simp only [Dialogue.ofFault_ok, Dialogue.value_bind]
      generalize BinaryOp.apply _ v (.number y.plain) = r
      rcases r with _ | b
      · rfl
      · cases hb : b.truthy <;> simp [hb, htruthy]

/-! Changes. -/

def changed (store : Store) (ident : String) (r : Except Script.Fault Value) : Dialogue Store := do
  let v ← .ofFault r
  return store.define ident v

theorem dialogue_change {op : Script.AssignOp} {binary : BinaryOp} {t : Script.Expr} {v operand : Value}
    (hop : op = .add ∧ binary = .add ∨ op = .sub ∧ binary = .sub) (hv : store.get? ident = some v)
    (ht : t.dialogue store = .value operand) : (⟨ident, op, t⟩ : Script.Assignment).dialogue store =
      changed store ident (binary.apply (if v.isNull then .number 0 else v) operand) := by
  obtain ⟨rfl, rfl⟩ | ⟨rfl, rfl⟩ := hop
  all_goals
    unfold Script.Assignment.dialogue changed
    simp only [hv, ht, Dialogue.ofFault_ok, Dialogue.value_bind]
    generalize BinaryOp.apply _ _ operand = r
    rcases r with cause | value
    · rfl
    · simp [Store.assign, hv, Store.define]

theorem dialogue_change_missing {op : Script.AssignOp} {t : Script.Expr} (hop : op = .add ∨ op = .sub)
    (hv : store.get? ident = none) : (⟨ident, op, t⟩ : Script.Assignment).dialogue store =
      .fail (.fault (.undeclared ident)) := by
  obtain rfl | rfl := hop
  all_goals simp [Script.Assignment.dialogue, hv]

/-! Loops. -/

/-- Whether some helpers stand apart from all that is mentioned, where the live variables keep their names. -/
structure Apart (ρ : String → String) (known live helpers : List String) : Prop where
  injective : Function.Injective ρ
  fixes : ∀ v ∈ live, ρ v = v
  subset : live ⊆ known
  apart : ∀ v ∈ helpers, v ∉ known.map ρ

variable {ρ : String → String} {known live : List String} {kept store' : Store}

theorem changed_imitates (h : Apart ρ known live [s, e, i]) (hident : ident ∈ live)
    (hstore : Store.Alongside ρ known kept live store store') {r : Except Script.Fault Value}
    (hr : ∀ cause, r = .error cause → cause.rename ρ = cause) :
    Dialogue.Renamed ρ (Store.Alongside ρ known kept live) (changed store ident r) (changed store' ident r) := by
  unfold changed
  refine (Dialogue.Renamed.ofFault hr).bind_eq fun v => .pure ?_
  have hdefine := (hstore.define h.injective (h.subset hident) v).mono (List.subset_cons_self ident live)
  rwa [h.fixes ident hident] at hdefine

/-- A number is taken from a value as its opposite is added, unless the value is none that it can be taken
from. Then no number comes of the sum either. -/
theorem sub_apply (v : Value) (n : Number) :
    BinaryOp.sub.apply v (.number n) = BinaryOp.add.apply v (.number n.neg) ∨
      (∃ cause, BinaryOp.sub.apply v (.number n) = .error cause) ∧
        ((∃ cause, BinaryOp.add.apply v (.number n.neg) = .error cause) ∨
          ∃ text, BinaryOp.add.apply v (.number n.neg) = .ok (.string text)) := by
  cases v with
  | number m => exact .inl rfl
  | error message => exact .inl rfl
  | string text => exact .inr ⟨⟨_, rfl⟩, .inr ⟨_, rfl⟩⟩
  | null | bool | array | object => exact .inr ⟨⟨_, rfl⟩, .inl ⟨_, rfl⟩⟩

/-- A step up is the same change for both loops; one down is it for numbers, while for everything else but a
failure the loop over numbers fails, and the other one at its next test. -/
theorem change_imitates (h : Apart ρ known live [s, e, i]) (hident : ident ∈ live)
    (hstore : Store.Alongside ρ known kept live store store')
    (hz : z.isFinite = true) (hstep : store'.get? i = some (.number (.toward x y z))) {l' : Script.Loop}
    (hstuck : ∀ text, ∃ e, l'.testDialogue (store'.define ident (.string text)) = .fail e) :
    let d := (⟨ident, if x.le y then .add else .sub, z.abs.tree⟩ : Script.Assignment).dialogue store
    let d' := (increase ident (.var i)).dialogue store'
    Dialogue.Renamed ρ (Store.Alongside ρ known kept live) d d' ∨ (∃ e, d = .fail e) ∧ l'.Stuck d' := by
  intro d d'
  have hvar : store'.get? ident = store.get? ident := by
    have halong := hstore.along ident hident
    rwa [h.fixes ident hident] at halong
  have hread : (Script.Expr.var i).dialogue store' = .value (.number (.toward x y z)) := by
    simp [Script.Expr.dialogue, Store.read, hstep]
  have hsize : z.abs.tree.dialogue store = .value (.number z.abs) := by
    rw [Number.dialogue_tree ((Number.isFinite_abs z).trans hz), Number.plain_abs hz]
  unfold d d' increase
  cases hv : store.get? ident with
  | none =>
    rw [dialogue_change_missing (by cases x.le y <;> simp) hv, dialogue_change_missing (.inl rfl) (hvar.trans hv)]
    refine .inl (.fault ?_)
    rw [Script.Fault.rename, h.fixes ident hident]
  | some v =>
    rw [dialogue_change (.inl ⟨rfl, rfl⟩) (hvar.trans hv) hread, Number.toward]
    cases hle : x.le y with
    | true =>
      rw [if_pos rfl, if_pos rfl, dialogue_change (.inl ⟨rfl, rfl⟩) hv hsize]
      exact .inl (changed_imitates h hident hstore (Script.binary_rename _ _ _))
    | false =>
      rw [if_neg Bool.false_ne_true, if_neg Bool.false_ne_true, dialogue_change (.inr ⟨rfl, rfl⟩) hv hsize]
      rcases sub_apply (if v.isNull then .number 0 else v) z.abs with hsame | ⟨⟨cause, hfail⟩, hlate⟩
      · rw [hsame]
        exact .inl (changed_imitates h hident hstore (Script.binary_rename _ _ _))
      · rw [hfail]
        refine .inr ⟨⟨_, rfl⟩, ?_⟩
        rcases hlate with ⟨cause', hfail'⟩ | ⟨text, htext⟩
        · rw [hfail']
          exact .inl ⟨_, rfl⟩
        · obtain ⟨err, herr⟩ := hstuck text
          rw [htext]
          exact .inr ⟨_, err, rfl, herr⟩

/-- The loop over computed bounds imitates the one over numbers, once it is ready. -/
theorem range_imitates (h : Apart ρ known live [s, e, i]) (hident : ident ∈ live)
    (hready : Ready s e i x y z store kept) (hy : y.isFinite = true) (hz : z.isFinite = true)
    (hdirection : x.le y = true ∨ z.equals 0 = false) {l l' : Script.Loop}
    (hcond : l.cond = some (.binary (direction x y) (.var ident) y.tree))
    (hcond' : l'.cond = some (.binary .or
      (.binary .and (.binary .ge (.var i) (.literal (.number 0))) (.binary .le (.var ident) (.var e)))
      (.binary .and (.binary .lt (.var i) (.literal (.number 0))) (.binary .ge (.var ident) (.var e)))))
    (hupdate : l.update = some ⟨ident, if x.le y then .add else .sub, z.abs.tree⟩)
    (hupdate' : l'.update = some (increase ident (.var i))) :
    Script.Loop.Imitates ρ known kept live l l' ⟨ident, if x.le y then .add else .sub, z.abs.tree⟩
      (increase ident (.var i)) := by
  have hstop {st st' : Store} (hstore : Store.Alongside ρ known kept live st st') :
      st'.get? e = some (.number y.plain) := (hstore.beside e (h.apart e (by simp))).trans hready.stop
  have hstep {st st' : Store} (hstore : Store.Alongside ρ known kept live st st') :
      st'.get? i = some (.number (.toward x y z)) := (hstore.beside i (h.apart i (by simp))).trans hready.step
  have hne {v : String} (hv : v ∈ [s, e, i]) : v ≠ ident := by
    rintro rfl
    exact h.apart v hv (List.mem_map.2 ⟨v, h.subset hident, h.fixes v hident⟩)
  refine ⟨hupdate, hupdate', fun st st' hstore => ?_, fun st st' hstore => ?_⟩
  · rw [range_test hy l hcond, computed_test hz hdirection l' hcond' (hstop hstore) (hstep hstore)]
    have hread := Store.read_rename (hstore.along ident hident)
    rw [h.fixes ident hident] at hread
    exact hread.bind_eq fun v => (Dialogue.Renamed.ofFault (Script.binary_rename _ _ _)).bind_eq fun b => .pure rfl
  · refine change_imitates h hident hstore hz (hstep hstore) fun text => ?_
    have hget (v : String) (hv : v ∈ [s, e, i]) :
        (st'.define ident (.string text)).get? v = st'.get? v :=
      (Dict.get?_insert _ _ _ _).trans (if_neg (hne hv))
    have hself : (st'.define ident (.string text)).read ident = .ok (.string text) := by
      simp [Store.read, Store.define, Dict.get?_insert]
    rw [computed_test hz hdirection l' hcond' ((hget e (by simp)).trans (hstop hstore))
      ((hget i (by simp)).trans (hstep hstore)), hself]
    unfold boundTest direction
    cases x.le y <;> exact ⟨_, rfl⟩

theorem range_sameRounds {σ : Type} {host : Host σ} (h : Apart ρ known live [s, e, i]) (hident : ident ∈ live)
    (hmentions : Script.mentionsAll body ⊆ known) (hfree : ∀ u ∈ Script.freeAll body, u.name ∈ live)
    (hplaced : Script.placedAll true body = true) (hnodup : [s, e, i].Nodup)
    (hx : x.isFinite = true) (hy : y.isFinite = true) (hz : z.isFinite = true)
    (hdirection : x.le y = true ∨ z.equals 0 = false) {t₁ t₂ t₃ : Script.Expr}
    (hstop : ∀ u ∈ t₂.uses, u.name ∈ live) (hstep : ∀ u ∈ t₃.uses, u.name ∈ live)
    {world after : Watched σ} {answers later : List Value}
    (hvalues : (Script.Expr.dialogueArgs store [t₁, t₂, t₃]).live host world answers =
      (.value [.number x.plain, .number y.plain, .number z.plain], after, later)) :
    Script.SameRounds host ident [rangeTree ident x y z body]
      (rangeSetupTree s e i t₁ t₂ t₃ ++ [computedRangeTree ident s e i (Script.renameAll ρ body)])
      ⟨store, after, later⟩ ⟨store, world, answers⟩ := by
  have hne {v : String} (hv : v ∈ live) : v ∉ [s, e, i] := fun hmem =>
    h.apart v hmem (List.mem_map.2 ⟨v, h.subset hv, h.fixes v hv⟩)
  have hne' {v w : String} (hv : v ∈ live) (hw : w ∈ [s, e, i]) : v ≠ w := fun heq => hne hv (heq ▸ hw)
  obtain ⟨kept, hready, hleads⟩ := leads_setup hnodup (fun u hu => hne' (hstop u hu) (by simp))
    (fun u hu => ⟨hne' (hstep u hu) (by simp), hne' (hstep u hu) (by simp)⟩) hx hy hz hvalues
  have hstore : Store.Alongside ρ known kept live store kept :=
    ⟨fun v hv => by rw [h.fixes v hv, hready.beside v (hne hv)], fun _ _ => rfl⟩
  have hbody : Script.Behaviour.Alongside ρ known kept live live (Script.walkAll host body)
      (Script.walkAll host (Script.renameAll ρ body)) :=
    Script.walkAll_alongside h.injective body hmentions hfree
  have htame : (Script.walkAll host body).Tame true := (Script.mirrorAll true body hplaced).tame
  rw [rangeTree_eq]
  refine Script.Leads.sameRounds hleads (fun left done => ⟨hstore, rfl, rfl, rfl⟩) ?_ ?_ fun w w' hw =>
    Script.Statement.forLoop_imitates (range_imitates h hident hready hy hz hdirection rfl rfl rfl rfl) ?_ hident
      (h.fixes ident hident) htame hbody hw
  · simpa [Script.placedAll, Script.Statement.placed] using hplaced
  · rw [placedAll_append]
    simpa [Script.placedAll, Script.Statement.placed, computedRangeTree, rangeSetupTree, Script.placedBranches,
      Script.placedOtherwise, Script.placedAll_rename] using hplaced
  · refine .storing (fun _ hv => hv) fun st st' hst => ?_
    have hbegin : (Script.Expr.var s).dialogue st' = .value (.number x.plain) := by
      have hget := (hst.beside s (h.apart s (by simp))).trans hready.start
      simp [Script.Expr.dialogue, Store.read, hget]
    have hassign := Store.assign_rename (.number x.plain) (hst.along ident hident)
      ((hst.define h.injective (h.subset hident) (.number x.plain)).mono (List.subset_cons_self ident live))
    rw [h.fixes ident hident] at hassign
    simpa [Script.Binding.dialogue, Script.Assignment.dialogue, setTo, Number.dialogue_tree hx, hbegin] using hassign

end

end ScopeBlocks
