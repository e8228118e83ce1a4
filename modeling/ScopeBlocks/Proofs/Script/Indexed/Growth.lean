import ScopeBlocks.Proofs.Script.Indexed.Tables

/-! Tables that are added to. Rows stay what they are, and so do blocks that are not open; what stands in
the tables still does. -/
namespace ScopeBlocks.Script.Indexed

/-- Whether tables have been added to: nothing in them has changed but some blocks that stand open. -/
structure Grows (opened : Nat → Prop) (t u : Tables) : Prop where
  expr {i : Nat} {e : Expr} : t.exprs[i]? = some e → u.exprs[i]? = some e
  statement {i : Nat} {s : Statement} : t.statements[i]? = some s → u.statements[i]? = some s
  blocks : t.blocks.length ≤ u.blocks.length
  block {k : Nat} {ids : List Nat} : ¬opened k → t.blocks[k]? = some ids → u.blocks[k]? = some ids

/-- Nothing at all has changed. -/
abbrev Extends : Tables → Tables → Prop := Grows fun _ => False

namespace Grows

variable {opened also : Nat → Prop} {t u v : Tables}

theorem refl (opened : Nat → Prop) (t : Tables) : Grows opened t t :=
  ⟨id, id, Nat.le_refl _, fun _ h => h⟩

theorem trans (h : Grows opened t u) (h' : Grows opened u v) : Grows opened t v :=
  ⟨h'.expr ∘ h.expr, h'.statement ∘ h.statement, Nat.le_trans h.blocks h'.blocks,
    fun hk hids => h'.block hk (h.block hk hids)⟩

theorem mono (h : Grows opened t u) (ho : ∀ k, opened k → also k) : Grows also t u :=
  ⟨h.expr, h.statement, h.blocks, fun hk => h.block (mt (ho _) hk)⟩

theorem of_extends (h : Extends t u) (opened : Nat → Prop) : Grows opened t u :=
  h.mono fun _ hk => hk.elim

/-! What stands in tables still does when they have grown. -/

theorem part {α : Type} {At Then : α → Nat → Prop} (h : ∀ a i, At a i → Then a i) {o : Option α}
    {i : Option Nat} (ho : PartAt At o i) : PartAt Then o i := by
  cases o with
  | none => exact ho
  | some a =>
    obtain ⟨j, rfl, ha⟩ := ho
    exact ⟨j, rfl, h a j ha⟩

mutual

theorem exprAt (h : Grows opened t u) : (e : Script.Expr) → {i : Nat} → ExprAt t e i → ExprAt u e i
  | .literal _, _, he | .var _, _, he => h.expr he
  | .call _ args, _, he => by
    obtain ⟨js, he, hargs⟩ := he
    exact ⟨js, h.expr he, h.exprsAt args hargs⟩
  | .member e _, _, he | .unary _ e, _, he => by
    obtain ⟨j, he, hoperand⟩ := he
    exact ⟨j, h.expr he, h.exprAt e hoperand⟩
  | .binary _ l r, _, he => by
    obtain ⟨j, k, he, hl, hr⟩ := he
    exact ⟨j, k, h.expr he, h.exprAt l hl, h.exprAt r hr⟩

theorem exprsAt (h : Grows opened t u) : (es : List Script.Expr) → {js : List Nat} →
    ExprsAt t es js → ExprsAt u es js
  | [], _, hes => hes
  | e :: rest, _, hes => by
    obtain ⟨j, ks, rfl, he, hrest⟩ := hes
    exact ⟨j, ks, rfl, h.exprAt e he, h.exprsAt rest hrest⟩

end

theorem assignmentAt (h : Grows opened t u) {a : Script.Assignment} {i : Nat} (ha : AssignmentAt t a i) :
    AssignmentAt u a i := by
  obtain ⟨j, ha, he⟩ := ha
  exact ⟨j, h.statement ha, h.exprAt _ he⟩

theorem bindingAt (h : Grows opened t u) {b : Script.Binding} {i : Nat} (hb : BindingAt t b i) :
    BindingAt u b i := by
  cases b with
  | declare x init =>
    obtain ⟨j, hs, hinit⟩ := hb
    exact ⟨j, h.statement hs, part (fun e _ => h.exprAt e) hinit⟩
  | assign a => exact h.assignmentAt hb

mutual

theorem statementAt (h : Grows opened t u) : (s : Script.Statement) → {low i : Nat} →
    (∀ k, low ≤ k → ¬opened k) → StatementAt t low s i → StatementAt u low s i
  | .bind b, _, _, _, hs => h.bindingAt hs
  | .eval e, _, _, _, hs => by
    obtain ⟨j, hs, he⟩ := hs
    exact ⟨j, h.statement hs, h.exprAt e he⟩
  | .branch branches otherwise, _, _, hlow, hs => by
    obtain ⟨bs, o, hs, hbs, ho⟩ := hs
    exact ⟨bs, o, h.statement hs, h.branchesAt branches hlow hbs, h.lastAt otherwise hlow ho⟩
  | .whileLoop cond body, _, _, hlow, hs => by
    obtain ⟨j, k, ids, hs, hc, hk, hids, hbody⟩ := hs
    exact ⟨j, k, ids, h.statement hs, h.exprAt cond hc, hk, h.block (hlow k hk) hids,
      h.statementsAt body (fun l hl => hlow l (by omega)) hbody⟩
  | .forLoop init cond update body, _, _, hlow, hs => by
    obtain ⟨n, c, v, k, ids, hs, hn, hc, hv, hk, hids, hbody⟩ := hs
    exact ⟨n, c, v, k, ids, h.statement hs, part (fun _ _ => h.bindingAt) hn,
      part (fun e _ => h.exprAt e) hc, part (fun _ _ => h.assignmentAt) hv, hk,
      h.block (hlow k hk) hids, h.statementsAt body (fun l hl => hlow l (by omega)) hbody⟩
  | .exitLoop, _, _, _, hs | .nextRound, _, _, _, hs => h.statement hs

theorem statementsAt (h : Grows opened t u) : (ss : List Script.Statement) → {low : Nat} →
    {ids : List Nat} → (∀ k, low ≤ k → ¬opened k) → StatementsAt t low ss ids → StatementsAt u low ss ids
  | [], _, _, _, hss => hss
  | s :: rest, _, _, hlow, hss => by
    obtain ⟨i, js, rfl, hs, hrest⟩ := hss
    exact ⟨i, js, rfl, h.statementAt s hlow hs, h.statementsAt rest hlow hrest⟩

theorem branchesAt (h : Grows opened t u) : (branches : List (Script.Expr × List Script.Statement)) →
    {low : Nat} → {bs : List (Nat × Nat)} → (∀ k, low ≤ k → ¬opened k) →
      BranchesAt t low branches bs → BranchesAt u low branches bs
  | [], _, _, _, hbs => hbs
  | (cond, body) :: rest, _, _, hlow, hbs => by
    obtain ⟨j, k, ids, cs, rfl, hc, hk, hids, hbody, hrest⟩ := hbs
    exact ⟨j, k, ids, cs, rfl, h.exprAt cond hc, hk, h.block (hlow k hk) hids,
      h.statementsAt body (fun l hl => hlow l (by omega)) hbody, h.branchesAt rest hlow hrest⟩

theorem lastAt (h : Grows opened t u) : (otherwise : Option (List Script.Statement)) → {low : Nat} →
    {o : Option Nat} → (∀ k, low ≤ k → ¬opened k) → LastAt t low otherwise o → LastAt u low otherwise o
  | none, _, _, _, ho => ho
  | some body, _, _, hlow, ho => by
    obtain ⟨k, ids, rfl, hk, hids, hbody⟩ := ho
    exact ⟨k, ids, rfl, hk, h.block (hlow k hk) hids,
      h.statementsAt body (fun l hl => hlow l (by omega)) hbody⟩

end

end Grows

/-! Rows. -/

theorem getElem?_concat_mono {α : Type} {l : List α} {i : Nat} {a b : α} (h : l[i]? = some b) :
    (l ++ [a])[i]? = some b := by
  rw [List.getElem?_append_left (List.getElem?_eq_some_iff.1 h).1]
  exact h

theorem getElem?_concat_cases {α : Type} {l : List α} {i : Nat} {a b : α}
    (h : (l ++ [a])[i]? = some b) : l[i]? = some b ∨ i = l.length ∧ b = a := by
  rcases Nat.lt_or_ge i l.length with hi | hi
  · exact .inl (by rwa [List.getElem?_append_left hi] at h)
  · rw [List.getElem?_append_right hi, List.getElem?_singleton] at h
    split at h
    next hi' => exact .inr ⟨by omega, (Option.some.inj h).symm⟩
    next => cases h

theorem lt_of_getElem? {α : Type} {l : List α} {i : Nat} {a : α} (h : l[i]? = some a) : i < l.length :=
  (List.getElem?_eq_some_iff.1 h).1

theorem ExprAt.lt {t : Tables} {e : Script.Expr} {i : Nat} (h : ExprAt t e i) : i < t.exprs.length := by
  cases e with
  | literal | var => exact lt_of_getElem? h
  | call | member | unary =>
    obtain ⟨_, h, _⟩ := h
    exact lt_of_getElem? h
  | binary =>
    obtain ⟨_, _, h, _⟩ := h
    exact lt_of_getElem? h

theorem ExprsAt.lt {t : Tables} {es : List Script.Expr} {js : List Nat} (h : ExprsAt t es js) :
    ∀ j ∈ js, j < t.exprs.length := by
  induction es generalizing js with
  | nil =>
    cases h
    simp
  | cons e rest ih =>
    obtain ⟨j, ks, rfl, he, hrest⟩ := h
    exact List.forall_mem_cons.2 ⟨he.lt, ih hrest⟩

section

variable {opened : Nat → Prop} {t u : Tables}

theorem Grows.exprs (h : Grows opened t u) : t.exprs.length ≤ u.exprs.length := by
  refine Nat.le_of_not_lt fun hlt => ?_
  have hlast : t.exprs[u.exprs.length]? = some t.exprs[u.exprs.length] :=
    List.getElem?_eq_getElem hlt
  exact absurd (lt_of_getElem? (h.expr hlast)) (Nat.lt_irrefl _)

theorem Grows.statements (h : Grows opened t u) : t.statements.length ≤ u.statements.length := by
  refine Nat.le_of_not_lt fun hlt => ?_
  have hlast : t.statements[u.statements.length]? = some t.statements[u.statements.length] :=
    List.getElem?_eq_getElem hlt
  exact absurd (lt_of_getElem? (h.statement hlast)) (Nat.lt_irrefl _)

theorem Grows.sound (h : Grows opened t u) {s : Statement} (hs : s.Sound t) : s.Sound u where
  exprs j hj := Nat.lt_of_lt_of_le (hs.exprs j hj) h.exprs
  choices k hk := Nat.lt_of_lt_of_le (hs.choices k hk) h.blocks
  body k hk := Nat.lt_of_lt_of_le (hs.body k hk) h.blocks
  clauses j hj := by
    obtain ⟨c, hc, hname⟩ := hs.clauses j hj
    exact ⟨c, h.statement hc, hname⟩
  changed := hs.changed

end

end ScopeBlocks.Script.Indexed
