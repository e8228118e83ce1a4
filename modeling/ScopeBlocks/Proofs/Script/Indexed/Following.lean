import ScopeBlocks.Proofs.Script.Indexed.Growth
import ScopeBlocks.Proofs.Script.Indexed.Machine
import ScopeBlocks.Proofs.Script.Outcomes
import ScopeBlocks.Proofs.Script.Writing

/-! Evaluations from tables do what those of the tree do that stands in them, call for call. They come to an
end, and upon no row of another kind than they need. -/
namespace ScopeBlocks.Script

/-- Errors that scripts run into by themselves: all but jumps without a loop. -/
def Error.IsOrdinary (e : Error) : Prop := ∀ word, e ≠ .fault (.outsideLoop word)

namespace Indexed

variable {σ α β γ δ : Type}

namespace Calc

theorem bind_apply (x : Calc σ α) (f : α → Calc σ β) (tape : Tape σ) : (x >>= f) tape =
    match x tape with
      | none => none
      | some (.ok a, tape) => f a tape
      | some (.error e, tape) => some (.error e, tape) := by
  change (x tape >>= _) = _
  rcases x tape with _ | ⟨_ | a, after⟩ <;> rfl

theorem row_bind {o : Option α} {a : α} (h : o = some a) (f : Flaw) (g : α → Calc σ β) :
    (row o f >>= g) = g a := by
  rw [h]
  exact pure_bind a g

end Calc

/-- Whether an evaluation from tables does what one of trees does: it comes to a value that stands for the
other one's, or is broken off in the same way, after the same calls. -/
def Follows (R : α → β → Prop) (x : Calc σ α) (y : Evaluation σ β) : Prop :=
  ∀ tape, match y tape with
    | (.ok b, after) => ∃ a, x tape = some (.ok a, after) ∧ R a b
    | (.error (.suspend call), after) => x tape = some (.error (.suspend call), after)
    | (.error (.fail e), after) => x tape = some (.error (.fail e), after) ∧ e.IsOrdinary

namespace Follows

variable {R : α → β → Prop} {Q : γ → δ → Prop} {x : Calc σ α} {y : Evaluation σ β}

theorem pure {a : α} {b : β} (h : R a b) :
    Follows R (Pure.pure a : Calc σ α) (Pure.pure b : Evaluation σ β) :=
  fun _ => ⟨a, rfl, h⟩

theorem bind {f : α → Calc σ γ} {g : β → Evaluation σ δ} (h : Follows R x y)
    (hf : ∀ a b, R a b → Follows Q (f a) (g b)) : Follows Q (x >>= f) (y >>= g) := by
  intro tape
  have hx := h tape
  rw [Evaluation.bind_apply]
  rw [Calc.bind_apply]
  rcases hy : y tape with ⟨(call | e) | b, after⟩
  · rw [hy] at hx
    dsimp only at hx ⊢
    rw [hx]
  · rw [hy] at hx
    dsimp only at hx ⊢
    rw [hx.1]
    exact ⟨rfl, hx.2⟩
  · rw [hy] at hx
    obtain ⟨a, hx, hR⟩ := hx
    dsimp only
    rw [hx]
    exact hf a b hR after

theorem bind_eq {z : Calc σ β} {f : β → Calc σ γ} {g : β → Evaluation σ δ} (h : Follows Eq z y)
    (hf : ∀ b, Follows Q (f b) (g b)) : Follows Q (z >>= f) (y >>= g) :=
  h.bind fun _ b hab => hab ▸ hf b

theorem ofFault {r : Except Fault α} (h : ∀ word, r ≠ .error (.outsideLoop word)) :
    Follows Eq (Calc.ofFault r : Calc σ α) (Evaluation.ofFault r) := by
  cases r with
  | ok a => exact fun _ => ⟨a, rfl, rfl⟩
  | error cause =>
    refine fun _ => ⟨rfl, fun word hword => h word ?_⟩
    cases hword
    rfl

end Follows

/-! Expressions. -/

theorem member_ordinary (field : String) (v : Value) (word : Keyword) :
    v.member field ≠ .error (.outsideLoop word) := by
  cases v <;> nofun

theorem unary_ordinary (op : UnaryOp) (v : Value) (word : Keyword) :
    op.apply v ≠ .error (.outsideLoop word) := by
  cases op <;> cases v <;> nofun

theorem binary_ordinary (op : BinaryOp) (v w : Value) (word : Keyword) :
    op.apply v w ≠ .error (.outsideLoop word) := by
  have harith : ∀ f, v.arithmetic f w ≠ .error (.outsideLoop word) := by
    intro f
    cases v <;> cases w <;> nofun
  have hcompare : ∀ f, v.compareBy f w ≠ .error (.outsideLoop word) := by
    intro f
    cases v <;> cases w <;> nofun
  cases op with
  | add => cases v <;> cases w <;> nofun
  | sub | mul | div | rem => exact harith _
  | lt | le | gt | ge => exact hcompare _
  | eq | ne | and | or => nofun

theorem read_ordinary (store : Store) (name : String) (word : Keyword) :
    store.read name ≠ .error (.outsideLoop word) := by
  unfold Store.read
  split <;> nofun

theorem assign_ordinary (store : Store) (name : String) (v : Value) (word : Keyword) :
    store.assign name v ≠ .error (.outsideLoop word) := by
  unfold Store.assign
  split <;> nofun

variable (host : Host σ) {t : Tables} {store : Store}

theorem Follows.ofEvaluation {y : Evaluation σ α}
    (h : ∀ tape e, (y tape).1 = .error (.fail e) → e.IsOrdinary) :
    Follows Eq (Calc.ofEvaluation y) y := by
  intro tape
  have hfails := h tape
  unfold Calc.ofEvaluation
  rcases hy : y tape with ⟨(call | e) | a, after⟩
  · rfl
  · exact ⟨rfl, hfails e (by rw [hy])⟩
  · exact ⟨a, rfl, rfl⟩

theorem call_eq (p : Primitive) (args : List Value) :
    call host p args = Calc.ofEvaluation (p.call host args) := by
  funext ⟨⟨taken, ahead⟩, s⟩
  cases ahead with
  | cons v ahead => rfl
  | nil =>
    cases p with
    | print | prompt | mark => rfl
    | _ =>
      simp only [call, Primitive.isAsync, if_true, Calc.ofEvaluation, Primitive.call,
        Evaluation.recordedOr, Evaluation.bind_apply, Primitive.perform]
      split
      next h => rw [h]; rfl
      next h => rw [h]; rfl

theorem call_follows (p : Primitive) (args : List Value) :
    Follows Eq (call host p args) (p.call host args) := by
  rw [call_eq]
  refine .ofEvaluation fun tape e he => ?_
  obtain ⟨cause, rfl⟩ := Primitive.call_fails he
  nofun

theorem evalArgs_follows {operand : Nat → Calc σ Value} {es : List Script.Expr} {js : List Nat}
    (h : ExprsAt t es js)
    (hoperand : ∀ j ∈ js, ∀ e, ExprAt t e j → Follows Eq (operand j) (e.eval host store)) :
    Follows Eq (js.mapM operand) (Script.Expr.evalArgs host store es) := by
  induction es generalizing js with
  | nil =>
    cases h
    exact .pure rfl
  | cons e rest ih =>
    obtain ⟨j, ks, rfl, he, hrest⟩ := h
    rw [List.mapM_cons]
    refine (hoperand j List.mem_cons_self e he).bind_eq fun _ => ?_
    exact (ih hrest fun k hk => hoperand k (List.mem_cons_of_mem _ hk)).bind_eq fun _ => .pure rfl

variable (store) in
/-- The row of an expression comes to what it comes to, if those that it refers to do. -/
theorem evalRow_follows {e : Script.Expr} {i : Nat} (h : ExprAt t e i) :
    ∃ row, t.exprs[i]? = some row ∧ ∀ operand : Nat → Calc σ Value,
      (∀ j ∈ row.parts, ∀ e, ExprAt t e j → Follows Eq (operand j) (e.eval host store)) →
      Follows Eq (evalRow host store operand row) (e.eval host store) := by
  cases e with
  | literal v => exact ⟨_, h, fun _ _ => .pure rfl⟩
  | var name => exact ⟨_, h, fun _ _ => .ofFault (read_ordinary store name)⟩
  | call p args =>
    obtain ⟨js, h, hargs⟩ := h
    refine ⟨_, h, fun operand hoperand => ?_⟩
    exact (evalArgs_follows host hargs hoperand).bind_eq fun vs => call_follows host p vs
  | member e field =>
    obtain ⟨j, h, he⟩ := h
    refine ⟨_, h, fun operand hoperand => ?_⟩
    exact (hoperand j List.mem_cons_self e he).bind_eq fun v => .ofFault (member_ordinary field v)
  | unary op e =>
    obtain ⟨j, h, he⟩ := h
    refine ⟨_, h, fun operand hoperand => ?_⟩
    exact (hoperand j List.mem_cons_self e he).bind_eq fun v => .ofFault (unary_ordinary op v)
  | binary op l r =>
    obtain ⟨j, k, h, hl, hr⟩ := h
    refine ⟨_, h, fun operand hoperand => ?_⟩
    have hl := hoperand j List.mem_cons_self l hl
    have hr := hoperand k (List.mem_cons_of_mem _ List.mem_cons_self) r hr
    cases op with
    | and =>
      refine hl.bind_eq fun v => ?_
      cases v.truthy with
      | true => exact hr.bind_eq fun _ => .pure rfl
      | false => exact .pure rfl
    | or =>
      refine hl.bind_eq fun v => ?_
      cases v.truthy with
      | true => exact .pure rfl
      | false => exact hr.bind_eq fun _ => .pure rfl
    | add | sub | mul | div | rem | eq | ne | lt | le | gt | ge =>
      exact hl.bind_eq fun v => hr.bind_eq fun w => .ofFault (binary_ordinary _ v w)

variable (hsound : t.Sound)

include hsound

/-- As rows refer to rows before them only, there are never more within each other than up to their index. -/
theorem evalWithin_follows {depth i : Nat} (hi : i < depth) {e : Script.Expr} (h : ExprAt t e i) :
    Follows Eq (evalWithin host t store depth i) (e.eval host store) := by
  -- every row is reached with more depth left than its index, and so are the rows that it refers to
  induction depth generalizing i e with
  | zero => exact absurd hi (Nat.not_lt_zero i)
  | succ depth ih =>
    obtain ⟨row, hrow, hfollows⟩ := evalRow_follows host store h
    rw [evalWithin, Calc.row_bind hrow]
    refine hfollows _ fun j hj e he => ih ?_ he
    exact Nat.lt_of_lt_of_le ((hsound.expr hrow).operands j hj) (Nat.le_of_lt_succ hi)

theorem eval_follows {e : Script.Expr} {i : Nat} (h : ExprAt t e i) :
    Follows Eq (eval host t store i) (e.eval host store) :=
  evalWithin_follows host hsound h.lt h

/-! Simple statements and conditions. -/

theorem assignment_follows {a : Script.Assignment} {i : Nat} (h : AssignmentAt t a i) :
    Follows Eq (simple host t store i) (a.run host store) := by
  obtain ⟨j, h, he⟩ := h
  have hcurrent : ∀ word, store.current a.name ≠ .error (.outsideLoop word) := by
    intro word hword
    unfold Store.current at hword
    split at hword <;> cases hword
  have hassign (v : Value) : Follows Eq (Calc.ofFault (store.assign a.name v) : Calc σ Store)
      (Evaluation.ofFault (store.assign a.name v)) := .ofFault (assign_ordinary store a.name v)
  have hoperand : Follows Eq (eval host t store j) (a.value.eval host store) :=
    eval_follows host hsound he
  rw [simple, Calc.row_bind h]
  unfold Script.Assignment.run
  cases a.op with
  | set =>
    refine Follows.bind_eq (.pure rfl) fun c => hoperand.bind_eq fun v => ?_
    exact Follows.bind_eq (.pure rfl) hassign
  | add =>
    refine Follows.bind_eq (.ofFault hcurrent) fun c => hoperand.bind_eq fun v => ?_
    exact Follows.bind_eq (.ofFault (binary_ordinary .add c v)) hassign
  | sub =>
    refine Follows.bind_eq (.ofFault hcurrent) fun c => hoperand.bind_eq fun v => ?_
    exact Follows.bind_eq (.ofFault (binary_ordinary .sub c v)) hassign

theorem binding_follows {b : Script.Binding} {i : Nat} (h : BindingAt t b i) :
    Follows Eq (simple host t store i) (b.run host store) := by
  cases b with
  | declare name init =>
    obtain ⟨j, h, hinit⟩ := h
    rw [simple, Calc.row_bind h]
    cases init with
    | none =>
      cases hinit
      exact .pure rfl
    | some e =>
      obtain ⟨k, rfl, he⟩ := hinit
      exact (eval_follows host hsound he).bind_eq fun _ => .pure rfl
  | assign a => exact assignment_follows host hsound h

theorem test_follows {l : Loop} {c : Option Nat} (h : PartAt (ExprAt t) l.cond c) :
    Follows Eq (test host t store c) (l.test host store) := by
  unfold Loop.test
  cases hcond : l.cond with
  | none =>
    rw [hcond] at h
    cases h
    exact .pure rfl
  | some e =>
    rw [hcond] at h
    obtain ⟨j, rfl, he⟩ := h
    exact (eval_follows host hsound he).bind_eq fun _ => .pure rfl

def PlacedBlockAt (t : Tables) (inLoop : Bool) (ss : List Script.Statement) (k : Nat) : Prop :=
  BlockAt t ss k ∧ placedAll inLoop ss = true

theorem choose_follows {low : Nat} {inLoop : Bool} {otherwise : Option (List Script.Statement)}
    {o : Option Nat} (ho : LastAt t low otherwise o) (hpo : placedOtherwise inLoop otherwise = true)
    {branches : List (Script.Expr × List Script.Statement)} {bs : List (Nat × Nat)}
    (h : BranchesAt t low branches bs) (hp : placedBranches inLoop branches = true) :
    Follows (fun k body => PartAt (PlacedBlockAt t inLoop) body k) (choose host t store o bs)
      (chooseBranch host store otherwise branches) := by
  induction branches generalizing bs with
  | nil =>
    cases h
    refine .pure ?_
    cases otherwise with
    | none => exact ho
    | some body =>
      obtain ⟨k, ids, rfl, -, hids, hbody⟩ := ho
      exact ⟨k, rfl, ⟨ids, hids, hbody⟩, hpo⟩
  | cons branch rest ih =>
    obtain ⟨cond, body⟩ := branch
    obtain ⟨j, k, ids, cs, rfl, hc, -, hids, hbody, hrest⟩ := h
    rw [placedBranches, Bool.and_eq_true] at hp
    refine (eval_follows host hsound hc).bind_eq fun v => ?_
    cases v.truthy with
    | true => exact .pure ⟨k, rfl, ⟨ids, hids, hbody⟩, hp.1⟩
    | false => exact ih hrest hp.2

end Indexed

end ScopeBlocks.Script
