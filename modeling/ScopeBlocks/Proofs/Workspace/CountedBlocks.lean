import ScopeBlocks.Proofs.Number.Counting
import ScopeBlocks.Proofs.Script.CountedRounds
import ScopeBlocks.Proofs.Script.Stepping
import ScopeBlocks.Proofs.Workspace.LoopBodies
import ScopeBlocks.Proofs.Workspace.RangeLoops

/-! Counted loops of a workspace. The counter of such a loop, and the number up to which it counts, have names that
nothing inside the loop mentions, so that the body is entered as often as the loop is to go round, whatever it does
with the variables of the workspace, with loops of its own and with jumps. -/
namespace ScopeBlocks

open Script (Counted Handed Host Store Value Walk Watched enteredAll walkAll)

namespace Number

theorem isFinite_plain (x : Number) : x.plain.isFinite = x.isFinite := by
  rcases x with _ | _ | ⟨_, _ | _, _⟩ <;> rfl

theorem value_plain (x : Number) : x.plain.value = x.value := by
  rcases x with _ | _ | ⟨negative, _ | _, _⟩
  · rfl
  · rfl
  · cases negative <;> rfl
  · rfl

end Number

/-! Counting up to a number. -/

section

variable {counter : String} {t : Script.Expr} {body : List Script.Statement} {x : Number}

/-- Whether a counter has come to a number of rounds, and the bound is a number. -/
def CountsTo (counter : String) (t : Script.Expr) (x : Number) (k : Nat) (store : Store) : Prop :=
  store.get? counter = some (.number (.ofNat k)) ∧ t.dialogue store = .value (.number x)

theorem CountsTo.congr {k : Nat} {store store' : Store} (h : CountsTo counter t x k store)
    (hcounter : store'.get? counter = store.get? counter)
    (huses : ∀ u ∈ t.uses, store'.get? u.name = store.get? u.name) : CountsTo counter t x k store' :=
  ⟨hcounter.trans h.1, (Script.Expr.dialogue_congr t huses).trans h.2⟩

theorem CountsTo.define {store : Store} (h : t.dialogue store = .value (.number x))
    (hcounter : ∀ u ∈ t.uses, u.name ≠ counter) (k : Nat) :
    CountsTo counter t x k (store.define counter (.number (.ofNat k))) := by
  refine ⟨(Dict.get?_insert _ _ _ _).trans (if_pos rfl), (Script.Expr.dialogue_congr t fun u hu => ?_).trans h⟩
  exact (Dict.get?_insert _ _ _ _).trans (if_neg (hcounter u hu))

variable {σ : Type} {host : Host σ}

theorem counted_counts (hx : x.isFinite = true) (hlt : x.value ≤ Number.mantissaLimit)
    (hplaced : Script.placedAll true body = true) (hcounter : ∀ u ∈ t.uses, u.name ≠ counter)
    (hkept : ∀ w : Walk σ, (walkAll host body w).2.store.get? counter = w.store.get? counter ∧
      ∀ u ∈ t.uses, (walkAll host body w).2.store.get? u.name = w.store.get? u.name)
    {init : Option Script.Binding} :
    Script.Loop.Counts ⟨init, some (.binary .lt (.var counter) t),
      some (increase counter (.literal (.number 1))), body⟩ (walkAll host body) ⌈x.value⌉₊
        (CountsTo counter t x) where
  test k store h hk := by
    have hle : k ≤ Number.mantissaLimit := Nat.le_trans hk (Nat.ceil_le.2 hlt)
    have hread : store.read counter = .ok (.number (.ofNat k)) := by rw [Store.read, h.1]
    simp only [Script.Loop.testDialogue, Script.Expr.dialogue, hread, h.2, Script.Dialogue.ofFault_ok,
      Script.Dialogue.value_bind, Script.BinaryOp.apply, Value.compareBy, Number.ofNat_lt_iff hle hx,
      Script.Dialogue.pure_eq, Value.truthy]
  update := by
    refine ⟨_, rfl, fun k store h hk => ⟨_, ?_, CountsTo.define h.2 hcounter (k + 1)⟩⟩
    have hle : k < Number.mantissaLimit := Nat.lt_of_lt_of_le hk (Nat.ceil_le.2 hlt)
    have hone : (Script.Expr.literal (.number 1)).dialogue store = .value (.number (.ofNat 1)) := by
      rw [Script.Expr.dialogue]
      rfl
    unfold increase
    rw [dialogue_change (.inl ⟨rfl, rfl⟩) h.1 hone, changed]
    simp only [Value.isNull, Bool.false_eq_true, if_false, Script.BinaryOp.apply, Value.add,
      Number.ofNat_add_one hle, Script.Dialogue.ofFault_ok, Script.Dialogue.value_bind, Script.Dialogue.pure_eq]
  body k w h := h.congr (hkept w).1 (hkept w).2
  tame := (Script.mirrorAll true body hplaced).tame

/-- A counted loop goes round as often as the ceiling of its bound says. -/
theorem countedTree_counted (hx : x.isFinite = true) (hlt : x.value ≤ Number.mantissaLimit)
    (hplaced : Script.placedAll true body = true) (hcounter : ∀ u ∈ t.uses, u.name ≠ counter)
    (hkept : ∀ w : Walk σ, (walkAll host body w).2.store.get? counter = w.store.get? counter ∧
      ∀ u ∈ t.uses, (walkAll host body w).2.store.get? u.name = w.store.get? u.name)
    {w : Walk σ} (hbound : t.dialogue w.store = .value (.number x)) :
    let s := countedTree counter t body
    Counted ⌈x.value⌉₊ (w.left - 1) (s.entered host w) (s.walk host w) ∧
      Handed (w.world, w.answers) (s.entered host w) ((s.walk host w).2.world, (s.walk host w).2.answers) := by
  have hzero : (declaration counter (.literal (.number 0))).dialogue w.store =
      .value (w.store.define counter (.number (.ofNat 0))) := by
    simp only [declaration, Script.Binding.dialogue, Script.Expr.dialogue, Script.Dialogue.pure_eq,
      Script.Dialogue.value_bind]
    rfl
  exact Script.Statement.forLoop_counted (counted_counts hx hlt hplaced hcounter hkept) hzero
    (CountsTo.define hbound hcounter 0)

theorem bind_before {b : Script.Binding} (rest : List Script.Statement) {w : Walk σ} {changed : Store}
    {after : Watched σ} {later : List Value} (hleft : w.left ≠ 0)
    (h : (b.dialogue w.store).live host w.world w.answers = (.value changed, after, later)) :
    ∃ w' : Walk σ, w'.store = changed ∧ w'.world = after ∧ w'.answers = later ∧ w'.left + 1 = w.left ∧
      walkAll host (.bind b :: rest) w = walkAll host rest w' ∧
        enteredAll host (.bind b :: rest) w = enteredAll host rest w' := by
  obtain ⟨left, hleft⟩ := Nat.exists_eq_succ_of_ne_zero hleft
  have hwalk : (Script.Statement.bind b).walk host w =
      (.normal, ⟨changed, after, later, left, w.pieces ++ [.statement (.bind b)]⟩) := by
    simp only [Script.Statement.walk, Script.Behaviour.storing, Script.Behaviour.unit, hleft, h]
  refine ⟨⟨changed, after, later, left, w.pieces ++ [.statement (.bind b)]⟩, rfl, rfl, rfl, hleft.symm, ?_, ?_⟩
  · rw [walkAll, Script.Behaviour.andThen, hwalk]
  · rw [enteredAll, hwalk]
    rfl

end

/-! Blocks. -/

namespace Block

variable {v : Block → String} {n : Names} {b : Block} {x : Number}

/-- How often a loop goes round, if that is written down. -/
def writtenCount? (b : Block) : Option Number :=
  if b.kind = "controls_repeat" then some (b.numberField "TIMES")
  else match b.input? "TIMES" with
    | none => some 0
    | some times => if times.kind = "math_number" then some (times.numberField "NUM") else none

def countTree (v : Block → String) (b : Block) (n : Names) : Script.Expr :=
  match b.writtenCount? with
  | some x => x.tree
  | none => (operands (fun c => n.identOf (v c)) b.values.entries).get "TIMES" zeroTree

theorem isFinite_writtenCount (h : b.writtenCount? = some x) : x.isFinite = true := by
  have hzero : (0 : Number).isFinite = true := by
    rw [show (0 : Number) = .zero from Number.ofNat_zero]
    rfl
  unfold writtenCount? at h
  split at h
  · exact Option.some.inj h ▸ isFinite_finiteOf _
  split at h
  · exact Option.some.inj h ▸ hzero
  split at h
  · exact Option.some.inj h ▸ isFinite_finiteOf _
  · cases h

theorem own_written (hkind : b.kind ∈ ["controls_repeat", "controls_repeat_ext"]) (h : b.writtenCount? = some x)
    (v : Block → String) (n : Names) : (b.own v n).1 =
      [countedTree (n.distinct "count").1 x.tree (b.body v (n.distinct "count").2).1] := by
  rw [own_eq]
  unfold ownOf
  unfold writtenCount? at h
  simp only [List.mem_cons, List.not_mem_nil, or_false] at hkind
  rcases hkind with hkind | hkind
  · rw [if_pos hkind] at h
    cases h
    simp only [hkind]
    rfl
  · rw [if_neg (by rw [hkind]; decide)] at h
    simp only [hkind]
    unfold repeatTree
    cases hinput : b.input? "TIMES" with
    | none =>
      rw [hinput] at h
      rw [← Option.some.inj h]
      rfl
    | some times =>
      rw [hinput] at h
      by_cases hnumber : times.kind = "math_number"
      · cases (if_pos hnumber).symm.trans h
        simp only [if_pos hnumber]
        rfl
      · cases (if_neg hnumber).symm.trans h

/-- The code of a loop that computes its count, which has a name before the counter has one. -/
theorem own_computed (hkind : b.kind ∈ ["controls_repeat", "controls_repeat_ext"]) (h : b.writtenCount? = none)
    (hserved : b.Served v n) :
    let n₁ := (n.distinct "repeat_end").2
    let n₂ := (n₁.distinct "count").2
    (b.own v n).1 = [.bind (declaration (n.distinct "repeat_end").1 (b.countTree v n)),
      countedTree (n₁.distinct "count").1 (.var (n.distinct "repeat_end").1) (b.body v n₂).1] := by
  intro n₁ n₂
  have hadds : n.Adds n₂ := (Names.Adds.refl.distinct _).distinct _
  have hops := operands_adds hserved hadds
  rw [own_eq]
  unfold ownOf countTree
  simp only [h]
  unfold writtenCount? at h
  rw [← hops]
  simp only [List.mem_cons, List.not_mem_nil, or_false] at hkind
  rcases hkind with hkind | hkind
  · rw [if_pos hkind] at h
    cases h
  · rw [if_neg (by rw [hkind]; decide)] at h
    simp only [hkind]
    unfold repeatTree
    cases hinput : b.input? "TIMES" with
    | none =>
      rw [hinput] at h
      cases h
    | some times =>
      rw [hinput] at h
      by_cases hnumber : times.kind = "math_number"
      · cases (if_pos hnumber).symm.trans h
      · simp only [if_neg hnumber]
        rfl

section

variable {σ : Type} {w : Walk σ} (host : Host σ) (hserved : b.Served v n)
  (hkind : b.kind ∈ ["controls_repeat", "controls_repeat_ext"]) (hx : x.isFinite = true)

include hserved hkind hx

theorem written_counted (hwritten : b.writtenCount? = some x) (hle : x.value ≤ Number.mantissaLimit) :
    let code := (b.own v n).1
    let r := walkAll host code w
    Counted ⌈x.value⌉₊ (w.left - 1) (enteredAll host code w) r ∧
      Handed (w.world, w.answers) (enteredAll host code w) (r.2.world, r.2.answers) := by
  have hadds : n.Adds (n.distinct "count").2 := Names.Adds.refl.distinct _
  have hfixed := Names.distinct_not_fixed hserved.taken (by decide : "count" ∉ Names.numberWords)
  have hkept := body_leaves (hserved.adds hadds) List.mem_cons_self (hadds.fixed ▸ hfixed) host
  have huses : x.tree.uses = [] := Number.uses_finite hx
  have hvalue : x.plain.value = x.value := Number.value_plain x
  have hplain : x.plain.isFinite = true := (Number.isFinite_plain x).trans hx
  rw [← hvalue] at hle
  intro code r
  unfold r code
  rw [own_written hkind hwritten, Script.walkAll_single, Script.enteredAll_single, ← hvalue]
  refine countedTree_counted hplain hle (body_placed v b _) (by rw [huses]; rintro _ ⟨⟩)
    (fun u => ⟨hkept u, ?_⟩) (Number.dialogue_tree hx w.store)
  rw [huses]
  rintro _ ⟨⟩

/-- A count that is computed before a loop is what the loop goes round by. -/
theorem computed_counted (hwritten : b.writtenCount? = none) (hle : x.value ≤ Number.mantissaLimit)
    {after : Watched σ} {later : List Value}
    (hcount : ((b.countTree v n).dialogue w.store).live host w.world w.answers = (.value (.number x), after, later))
    (hleft : w.left ≠ 0) :
    let code := (b.own v n).1
    let r := walkAll host code w
    Counted ⌈x.value⌉₊ (w.left - 2) (enteredAll host code w) r ∧
      Handed (after, later) (enteredAll host code w) (r.2.world, r.2.answers) := by
  let n₁ := (n.distinct "repeat_end").2
  let n₂ := (n₁.distinct "count").2
  let stop := (n.distinct "repeat_end").1
  let counter := (n₁.distinct "count").1
  have hadds₁ : n.Adds n₁ := Names.Adds.refl.distinct _
  have hadds : n.Adds n₂ := hadds₁.distinct _
  -- the name of the bound is taken when the counter gets its own
  have hstop : stop ∈ n₁.taken := List.mem_cons_self
  have hne : stop ≠ counter := ne_of_mem_of_not_mem hstop (n₁.freshIdent_not_mem _)
  have hfixed : stop ∉ n₂.fixed := by
    rw [hadds.fixed]
    exact Names.distinct_not_fixed hserved.taken (by decide)
  have hfixed' : counter ∉ n₂.fixed := by
    rw [hadds.fixed, ← hadds₁.fixed]
    exact Names.distinct_not_fixed (hadds₁.declared_taken hserved.taken) (by decide)
  have hkept := body_leaves (hserved.adds hadds) (List.mem_cons_of_mem _ hstop) hfixed host
  have hkept' := body_leaves (hserved.adds hadds) List.mem_cons_self hfixed' host
  have huses : ∀ u ∈ (Script.Expr.var stop).uses, u.name = stop := fun u hu => by
    rw [List.mem_singleton.1 hu]
    rfl
  intro code r
  unfold r code
  rw [own_computed hkind hwritten hserved]
  obtain ⟨u, hstore, rfl, rfl, hunits, hwalk, hentered⟩ :=
    bind_before [countedTree counter (.var stop) (b.body v n₂).1] hleft (live_declare hcount stop)
  have hget : u.store.get? stop = some (.number x) := by
    rw [hstore]
    exact (Dict.get?_insert _ _ _ _).trans (if_pos rfl)
  have hbound : (Script.Expr.var stop).dialogue u.store = .value (.number x) := by
    simp only [Script.Expr.dialogue, Store.read, hget, Script.Dialogue.ofFault_ok]
  rw [hwalk, hentered, Script.walkAll_single, Script.enteredAll_single]
  obtain ⟨hcounted, hhanded⟩ := countedTree_counted hx hle (body_placed v b _)
    (fun use huse => by rw [huses use huse]; exact hne)
    (fun u => ⟨hkept' u, fun use huse => by rw [huses use huse]; exact hkept u⟩) hbound
  exact ⟨hcounted.fewer (by omega), hhanded⟩

end

end Block

namespace Workspace

variable {σ : Type} {n : Names} {b : Block} {x : Number} {after : Watched σ} {later : List Value}

/-- A counted loop of a workspace, whatever is in it, goes round as often as the ceiling of its count says, which is
evaluated once. -/
theorem countedBlock_exact (host : Host σ) (w : Workspace) (hb : w.Generates b)
    (hkind : b.kind ∈ ["controls_repeat", "controls_repeat_ext"]) (hn : w.names.Adds n) {u : Walk σ}
    (hcount : ((b.countTree w.variableOf n).dialogue u.store).live host u.world u.answers =
      (.value (.number x), after, later))
    (hx : x.isFinite = true) (hlt : x.value < 2 ^ 53) (hleft : 2 ≤ u.left) :
    let code := (b.own w.variableOf n).1
    let r := walkAll host code u
    Counted ⌈x.value⌉₊ (u.left - 2) (enteredAll host code u) r ∧
      Handed (after, later) (enteredAll host code u) (r.2.world, r.2.answers) := by
  have hserved := w.served hb hn
  have hle : x.value ≤ Number.mantissaLimit := by
    refine le_of_lt (lt_of_lt_of_eq hlt ?_)
    norm_num [Number.mantissaLimit]
  cases hwritten : b.writtenCount? with
  | some y =>
    have hy := Block.isFinite_writtenCount hwritten
    have htree : b.countTree w.variableOf n = y.tree := by
      unfold Block.countTree
      rw [hwritten]
    rw [htree, Number.dialogue_tree hy] at hcount
    cases hcount
    rw [Number.value_plain] at hle ⊢
    obtain ⟨hcounted, hhanded⟩ := Block.written_counted host hserved hkind hy hwritten hle
    exact ⟨hcounted.fewer (by omega), hhanded⟩
  | none => exact Block.computed_counted host hserved hkind hx hwritten hle hcount (by omega)

/-- A loop that goes round as often as a variable says, and in each round sets this variable to nothing and goes on
to the next round. Two of the variables are called like the helpers of such a loop. -/
def forgetfulLoop : Block :=
  let count := { Block.ofKind "times" "variables_get" with fields := .singleton "VAR" ⟨"count", none⟩ }
  let nothing := Block.ofKind "nothing" "logic_null"
  let forget := { Block.ofKind "forget" "variables_set" with
    fields := .singleton "VAR" ⟨"count", none⟩, values := .singleton "VALUE" ⟨some nothing, none⟩ }
  let forgetEnd := { forget with id := "forgetEnd", fields := .singleton "VAR" ⟨"repeat_end", none⟩ }
  let next := { Block.ofKind "next" "controls_flow_statements" with fields := .singleton "FLOW" ⟨"CONTINUE", none⟩ }
  { Block.ofKind "loop" "controls_repeat_ext" with
    values := .singleton "TIMES" ⟨some count, none⟩, statements := .singleton "DO" [forget, forgetEnd, next] }

def forgetful : Workspace := ⟨[], [[forgetfulLoop]]⟩

theorem forgetfulLoop_counted :
    let code := (forgetfulLoop.own forgetful.variableOf forgetful.names).1
    let w : Walk Unit := ⟨.ofList [("count", .number 3), ("repeat_end", .null)], ⟨(), []⟩, [], 40, []⟩
    (Number.ofNat 3).value < 2 ^ 53 ∧
      Counted 3 38 (enteredAll Script.silentHost code w) (walkAll Script.silentHost code w) ∧
        (enteredAll Script.silentHost code w).length = 3 ∧ (walkAll Script.silentHost code w).1 = .normal := by
  have hgenerates : forgetful.Generates forgetfulLoop :=
    ⟨_, List.mem_singleton.2 rfl, _, List.mem_singleton.2 rfl, rfl, false, .here⟩
  have hvalue : (Number.ofNat 3).value = (3 : Nat) := Number.value_ofNat (by decide)
  have hlt : (Number.ofNat 3).value < 2 ^ 53 := by
    rw [hvalue]
    norm_num
  have htree : forgetfulLoop.countTree forgetful.variableOf forgetful.names =
      .var (forgetful.names.identOf "count") := rfl
  have hident : forgetful.names.identOf "count" = "count" := by decide +kernel
  intro code w
  have hcount : ((forgetfulLoop.countTree forgetful.variableOf forgetful.names).dialogue w.store).live
      Script.silentHost w.world w.answers = (.value (.number (.ofNat 3)), w.world, w.answers) := by
    rw [htree, hident]
    rfl
  have hcounted := (countedBlock_exact Script.silentHost forgetful hgenerates (by decide) .refl hcount
    (by decide +kernel) hlt (by decide)).1
  rw [hvalue, Nat.ceil_natCast] at hcounted
  exact ⟨hlt, hcounted, by decide +kernel, by decide +kernel⟩

end Workspace

end ScopeBlocks
