import ScopeBlocks.Proofs.Script.Stepping
import ScopeBlocks.Proofs.Workspace.LoopBodies
import ScopeBlocks.Proofs.Workspace.RangeLoops

/-! Counting blocks whose bounds are written down, and the same blocks with the same bounds computed: their bodies
are entered with the same values of the loop variable. Only a step of zero keeps no direction: downwards the one
loop goes on for ever, where the other one is not entered. -/
namespace ScopeBlocks

open Script (Host SameRounds Store Value Watched renameAll)

namespace Block

variable {v : Block → String} {n : Names} {b b' : Block} {x y z : Number}

/-- The expressions that stand for the bounds and the step of a counting block. -/
def boundTrees (v : Block → String) (b : Block) (n : Names) : List Script.Expr :=
  let o := operands (fun c => n.identOf (v c)) b.values.entries
  [o.get "FROM" zeroTree, o.get "TO" zeroTree, o.get "BY" (Number.tree 1)]

/-- Whether a block counts over three numbers that are written down, and another one is the same except for its
bounds, of which at least one is computed. -/
structure Recounts (b b' : Block) (x y z : Number) : Prop where
  kind : b.kind = "controls_for"
  start : b.knownBound? "FROM" 0 = some x
  stop : b.knownBound? "TO" 0 = some y
  step : b.knownBound? "BY" 1 = some z
  same : b' = { b with values := b'.values }
  computed : b'.knownBound? "FROM" 0 = none ∨ b'.knownBound? "TO" 0 = none ∨ b'.knownBound? "BY" 1 = none

namespace Recounts

variable (h : Recounts b b' x y z)

include h

theorem kind' : b'.kind = "controls_for" := by
  rw [h.same]
  exact h.kind

theorem variableOf (w : Workspace) : w.variableOf b' = w.variableOf b := by
  rw [h.same]
  rfl

theorem body (v : Block → String) : b'.body v = b.body v := by
  rw [h.same]
  rfl

theorem own (v : Block → String) (n : Names) :
    (b.own v n).1 = [rangeTree (n.identOf (v b)) x y z (b.body v n).1] := by
  rw [own_eq]
  unfold ownOf
  simp only [h.kind, forTree, h.start, h.stop, h.step]
  rfl

theorem forTree' (ident : String) (ops : Names → Operands) : b'.forTree ident ops = do
    let names ← get
    let s ← helper (ident ++ "_start")
    let e ← helper (ident ++ "_end")
    let i ← helper (ident ++ "_inc")
    let o := ops names
    return fun body => rangeSetupTree s e i (o.get "FROM" zeroTree) (o.get "TO" zeroTree)
      (o.get "BY" (Number.tree 1)) ++ [computedRangeTree ident s e i body] := by
  unfold forTree
  split
  next hstart hstop hstep => simpa [hstart, hstop, hstep] using h.computed
  next => rfl

/-- The code of computed bounds, whose helpers are given their names before the body is coded. -/
theorem own' (v : Block → String) (n : Names) : ∃ s e i n' t₁ t₂ t₃, n.Adds n' ∧ [s, e, i].Nodup ∧
    (n.declared ⊆ n.taken → ∀ helper ∈ [s, e, i], helper ∈ n'.taken ∧ helper ∉ n.fixed) ∧
      b'.boundTrees v n = [t₁, t₂, t₃] ∧ (b'.own v n).1 = rangeSetupTree s e i t₁ t₂ t₃ ++
        [computedRangeTree (n.identOf (v b')) s e i (b'.body v n').1] := by
  let ident := n.identOf (v b')
  let n₁ := (n.distinct (ident ++ "_start")).2
  let n₂ := (n₁.distinct (ident ++ "_end")).2
  let n₃ := (n₂.distinct (ident ++ "_inc")).2
  have hadds₁ : n.Adds n₁ := Names.Adds.refl.distinct _
  have hadds₂ : n.Adds n₂ := hadds₁.distinct _
  have hadds₃ : n.Adds n₃ := hadds₂.distinct _
  have hnew₂ : (n₁.distinct (ident ++ "_end")).1 ∉ n₁.taken := n₁.freshIdent_not_mem _
  have hnew₃ : (n₂.distinct (ident ++ "_inc")).1 ∉ n₂.taken := n₂.freshIdent_not_mem _
  refine ⟨(n.distinct (ident ++ "_start")).1, (n₁.distinct (ident ++ "_end")).1,
    (n₂.distinct (ident ++ "_inc")).1, n₃, _, _, _, hadds₃, ?_, fun htaken => ?_, rfl, ?_⟩
  · have hfirst : (n.distinct (ident ++ "_start")).1 ∈ n₁.taken := List.mem_cons_self
    have hsecond : (n₁.distinct (ident ++ "_end")).1 ∈ n₂.taken := List.mem_cons_self
    have hne₂ := ne_of_mem_of_not_mem hfirst hnew₂
    have hne₃ := ne_of_mem_of_not_mem (List.mem_cons_of_mem _ hfirst : _ ∈ n₂.taken) hnew₃
    have hne := ne_of_mem_of_not_mem hsecond hnew₃
    simp only [List.nodup_cons, List.mem_cons, List.not_mem_nil, or_false, not_or, not_false_eq_true,
      List.nodup_nil, and_true]
    exact ⟨⟨hne₂, hne₃⟩, hne⟩
  · have hword (word : String) (hmem : '_' ∈ word.toList) := Names.append_not_mem_numberWords ident hmem
    have hfixed₁ := Names.distinct_not_fixed htaken (hword "_start" (by decide))
    have hfixed₂ := Names.distinct_not_fixed (hadds₁.declared_taken htaken) (hword "_end" (by decide))
    have hfixed₃ := Names.distinct_not_fixed (hadds₂.declared_taken htaken) (hword "_inc" (by decide))
    rw [hadds₁.fixed] at hfixed₂
    rw [hadds₂.fixed] at hfixed₃
    intro helper hmem
    simp only [List.mem_cons, List.not_mem_nil, or_false] at hmem
    rcases hmem with rfl | rfl | rfl
    · exact ⟨List.mem_cons_of_mem _ (List.mem_cons_of_mem _ List.mem_cons_self), hfixed₁⟩
    · exact ⟨List.mem_cons_of_mem _ List.mem_cons_self, hfixed₂⟩
    · exact ⟨List.mem_cons_self, hfixed₃⟩
  · rw [own_eq]
    unfold ownOf
    simp only [h.kind', h.forTree']
    rfl

end Recounts

theorem uses_boundTrees (h : b.Served v n) {t : Script.Expr} (ht : t ∈ b.boundTrees v n) :
    ∀ u ∈ t.uses, u.name ∈ n.fixed := by
  have hops : Operands.Declared n.declared (fun _ => False)
      (operands (fun c => n.identOf (v c)) b.values.entries) := by
    refine operands_declared b.values.entries fun c hc hkind => Names.identOf_mem_declared ?_
    exact h.sockets c hc (by simp [Workspace.namesVariable, hkind])
  have hcovered : Script.Covered n.declared (fun _ => False) t.uses := by
    simp only [boundTrees, List.mem_cons, List.not_mem_nil, or_false] at ht
    rcases ht with rfl | rfl | rfl
    · exact hops.get "FROM" uses_zeroTree
    · exact hops.get "TO" uses_zeroTree
    · exact hops.get "BY" Number.uses_one
  exact fun u hu => Names.mem_fixed.2 (.inl ((hcovered u hu).resolve_right not_false))

end Block

namespace Workspace

open Block (Recounts)

variable {σ : Type} {n : Names} {b b' : Block} {x y z : Number} {store : Store} {world after : Watched σ}
  {answers later : List Value}

/-- A counting block over numbers goes round like one over bounds that come to these numbers, from where the host is
left by the bounds, if the step is not zero or leads upwards. -/
theorem rangeBlocks_agree (host : Host σ) (w : Workspace) (h : Recounts b b' x y z) (hx : x.isFinite = true)
    (hy : y.isFinite = true) (hz : z.isFinite = true) (hdirection : x.le y = true ∨ z.equals 0 = false)
    (hserved : b.Served w.variableOf n) (hserved' : b'.Served w.variableOf n)
    (hvalues : (Script.Expr.dialogueArgs store (b'.boundTrees w.variableOf n)).live host world answers =
      (.value [.number x.plain, .number y.plain, .number z.plain], after, later)) :
    SameRounds host (n.identOf (w.variableOf b)) (b.own w.variableOf n).1 (b'.own w.variableOf n).1
      ⟨store, after, later⟩ ⟨store, world, answers⟩ := by
  obtain ⟨s, e, i, n', t₁, t₂, t₃, hadds, hnodup, hhelpers, htrees, hown'⟩ := h.own' w.variableOf n
  obtain ⟨ρ, known, hbody, hmentions, hsubset, hfixes, hapart⟩ := Block.body_relabelled hserved hadds
  rw [htrees] at hvalues
  rw [h.own, hown', h.body, h.variableOf, hbody]
  have hbounds (t : Script.Expr) (ht : t ∈ [t₁, t₂, t₃]) : ∀ u ∈ t.uses, u.name ∈ n.fixed :=
    Block.uses_boundTrees hserved' (htrees ▸ ht)
  have hident : n.identOf (w.variableOf b) ∈ n.fixed := by
    refine Names.mem_fixed.2 (.inl (Names.identOf_mem_declared (hserved.requests b b.mem_active_self ?_)))
    simp [namesVariable, h.kind]
  refine range_sameRounds ⟨ρ.injective, hfixes, hsubset, fun helper hmem => ?_⟩ hident hmentions
    (Block.body_free hserved) (Block.body_placed w.variableOf b n) hnodup hx hy hz hdirection
    (hbounds t₂ (by simp)) (hbounds t₃ (by simp)) hvalues
  obtain ⟨htaken, hnew⟩ := hhelpers hserved.taken helper hmem
  exact hapart helper htaken hnew

/-- A loop over `k` from one block's value to another one's by a third one's. -/
def countingBlock (start stop step : Block) : Block :=
  { Block.ofKind "loop" "controls_for" with
    fields := .singleton "VAR" ⟨"k", none⟩
    values := ⟨[("BY", ⟨some step, none⟩), ("FROM", ⟨some start, none⟩), ("TO", ⟨some stop, none⟩)]⟩ }

def written (text : String) : Block :=
  { Block.ofKind text "math_number" with fields := .singleton "NUM" ⟨text, none⟩ }

def held (name : String) : Block :=
  { Block.ofKind name "variables_get" with fields := .singleton "VAR" ⟨name, none⟩ }

def writtenLoop (start stop step : String) : Block := countingBlock (written start) (written stop) (written step)

def heldLoop : Block := countingBlock (held "low") (held "high") (held "by")

def loopNames : Names := .ofVariables ["k", "low", "high", "by"]

/-- The code of a loop, and variables that hold its bounds. -/
def loopCode (b : Block) : List Script.Statement := (b.own empty.variableOf loopNames).1

def heldBounds (start stop step : Number) : Script.Place Unit :=
  ⟨.ofList [("k", .null), ("low", .number start), ("high", .number stop), ("by", .number step)], ⟨(), []⟩, []⟩

theorem countingUp_agrees : SameRounds Script.silentHost (loopNames.identOf "k")
    (loopCode (writtenLoop "2" "5" "1")) (loopCode heldLoop) (heldBounds 2 5 1) (heldBounds 2 5 1) := by
  have hrecounts : Recounts (writtenLoop "2" "5" "1") heldLoop 2 5 1 :=
    ⟨by decide, by decide +kernel, by decide +kernel, by decide +kernel, rfl, .inl (by decide +kernel)⟩
  have hserved : (writtenLoop "2" "5" "1").Served empty.variableOf loopNames :=
    ⟨by decide +kernel, show ∀ c ∈ (writtenLoop "2" "5" "1").active, namesVariable c = true →
      empty.variableOf c ∈ loopNames.assigned.map Prod.fst by decide +kernel⟩
  have hserved' : heldLoop.Served empty.variableOf loopNames :=
    ⟨by decide +kernel, show ∀ c ∈ heldLoop.active, namesVariable c = true →
      empty.variableOf c ∈ loopNames.assigned.map Prod.fst by decide +kernel⟩
  have hplain : (2 : Number).plain = 2 ∧ (5 : Number).plain = 5 ∧ (1 : Number).plain = 1 := by decide +kernel
  have hidents : ["low", "high", "by"].map loopNames.identOf = ["low", "high", "by"] := by decide +kernel
  have htrees : heldLoop.boundTrees empty.variableOf loopNames =
      (["low", "high", "by"].map loopNames.identOf).map Script.Expr.var := rfl
  refine rangeBlocks_agree Script.silentHost empty hrecounts (by decide +kernel) (by decide +kernel)
    (by decide +kernel) (.inl (by decide +kernel)) hserved hserved' ?_
  rw [htrees, hidents, hplain.1, hplain.2.1, hplain.2.2]
  rfl

/-- From two down to one by zero, the loop over numbers goes round and round, and the other one is not entered. -/
theorem zeroStep_disagrees :
    let walk : Script.Walk Unit := (heldBounds 2 1 0).walk 10 []
    (Script.roundValuesAll Script.silentHost "k" (loopCode (writtenLoop "2" "1" "0")) walk).length = 5 ∧
      (Script.walkAll Script.silentHost (loopCode heldLoop) walk).1 = .normal ∧
      Script.roundValuesAll Script.silentHost "k" (loopCode heldLoop) walk = [] :=
  ⟨by decide +kernel, by decide +kernel, List.eq_nil_of_length_eq_zero (by decide +kernel)⟩

end Workspace

end ScopeBlocks
