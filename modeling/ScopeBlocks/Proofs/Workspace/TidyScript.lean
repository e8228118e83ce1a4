import ScopeBlocks.Proofs.Script.Tidy
import ScopeBlocks.Proofs.Workspace.ReadBack

/-! The scripts of workspaces are tidy: only the statement before a block marks the block. -/
namespace ScopeBlocks

open Script (tidyAll tidyBranches tidyOtherwise quietAll)

theorem Number.quiet_tree (x : Number) : x.tree.quiet = true := by
  unfold Number.tree
  split
  · rfl
  · rfl
  · rfl
  · split <;> rfl

mutual

theorem Term.quiet_tree {names : Names} : (t : Term) → (t.tree names).quiet = true
  | .number x => by
    unfold Term.tree
    exact x.quiet_tree
  | .text _ | .truth _ | .null | .var _ | .position _ | .sharpness => by
    unfold Term.tree
    rfl
  | .binary _ left right => by
    unfold Term.tree Script.Expr.quiet
    rw [left.quiet_tree, right.quiet_tree]
    rfl
  | .negate operand => by
    unfold Term.tree Script.Expr.quiet
    exact operand.quiet_tree
  | .join parts => by
    unfold Term.tree
    exact quiet_joinTree parts rfl
  | .prompt numeric message => by
    unfold Term.tree Script.Expr.quiet quietAll
    rw [message.quiet_tree]
    cases numeric <;> rfl

theorem quiet_joinTree {names : Names} : (parts : List Term) → {before : Script.Expr} →
    before.quiet = true → (joinTree names before parts).quiet = true
  | [], _, h => by
    unfold joinTree
    exact h
  | part :: rest, _, h => by
    unfold joinTree
    refine quiet_joinTree rest ?_
    unfold Script.Expr.quiet
    rw [h, part.quiet_tree]
    rfl

end

theorem tidyAll_append {ss ts : List Script.Statement} (hs : tidyAll ss = true)
    (ht : tidyAll ts = true) : tidyAll (ss ++ ts) = true := by
  induction ss with
  | nil => exact ht
  | cons s ss ih =>
    unfold tidyAll at hs
    obtain ⟨hhead, htail⟩ := Bool.and_eq_true_iff.1 hs
    rw [List.cons_append]
    unfold tidyAll
    rw [hhead, ih htail]
    rfl

theorem tidyAll_single {s : Script.Statement} (h : s.tidy = true) : tidyAll [s] = true := by
  unfold tidyAll tidyAll
  rw [h]
  rfl

theorem tidy_set {ident : String} {e : Script.Expr} (h : e.quiet = true) :
    tidyAll [.bind (.assign (setTo ident e))] = true := tidyAll_single h

theorem tidy_declare {ident : String} {e : Script.Expr} (h : e.quiet = true) :
    tidyAll [.bind (declaration ident e)] = true := tidyAll_single h

theorem tidy_call {p : Script.Primitive} {args : List Script.Expr} (hp : p ≠ .mark)
    (h : quietAll args = true) : tidyAll [callTree p args] = true := by
  refine tidyAll_single ?_
  unfold callTree Script.Statement.tidy Script.Expr.quiet
  simp [hp, h]

/-- Loops that are tidy where their bodies are. -/
def TidyLoop (loop : LoopTree) : Prop := ∀ ss, tidyAll ss = true → tidyAll (loop ss) = true

theorem tidyLoop_counted {counter : String} {times : Script.Expr} (h : times.quiet = true) :
    TidyLoop fun body => [countedTree counter times body] := by
  intro ss hs
  refine tidyAll_single ?_
  unfold countedTree Script.Statement.tidy
  simp [declaration, increase, Script.Binding.quiet, Script.Assignment.quiet, Script.Expr.quiet, h, hs]

theorem tidyLoop_range {ident : String} {start stop step : Number} :
    TidyLoop fun body => [rangeTree ident start stop step body] := by
  intro ss hs
  have hstart := start.quiet_tree
  have hstop := stop.quiet_tree
  have hstep := step.abs.quiet_tree
  refine tidyAll_single ?_
  unfold rangeTree
  split
  simp [Script.Statement.tidy, setTo, Script.Binding.quiet, Script.Assignment.quiet,
    Script.Expr.quiet, hstart, hstop, hstep, hs]

theorem tidyLoop_computedRange {ident start stop step : String} {e f g : Script.Expr}
    (he : e.quiet = true) (hf : f.quiet = true) (hg : g.quiet = true) :
    TidyLoop fun body => rangeSetupTree start stop step e f g ++
      [computedRangeTree ident start stop step body] := by
  intro ss hs
  have hsetup : tidyAll (rangeSetupTree start stop step e f g) = true := by
    simp [rangeSetupTree, tidyAll, tidyBranches, tidyOtherwise, Script.Statement.tidy, declaration,
      setTo, Script.Binding.quiet, Script.Assignment.quiet, Script.Expr.quiet, he, hf, hg]
  refine tidyAll_append hsetup (tidyAll_single ?_)
  simp [computedRangeTree, Script.Statement.tidy, setTo, increase, Script.Binding.quiet,
    Script.Assignment.quiet, Script.Expr.quiet, hs]

theorem Count.tidy_tree (c : Count) : Returns TidyLoop c.tree := by
  cases c with
  | fixed times =>
    unfold Count.tree
    exact .bind (.any _) fun _ _ => .pure (tidyLoop_counted times.quiet_tree)
  | computed times =>
    unfold Count.tree
    refine .bind (.any _) fun _ _ => .bind (.any _) fun _ _ => .bind (.any _) fun names _ => ?_
    refine .pure fun ss hs => ?_
    exact tidyAll_append (tidy_declare times.quiet_tree) (tidyLoop_counted rfl ss hs)

theorem Bounds.tidy_tree {ident : String} (b : Bounds) : Returns TidyLoop (b.tree ident) := by
  cases b with
  | fixed start stop step =>
    unfold Bounds.tree
    exact .pure tidyLoop_range
  | computed start stop step =>
    unfold Bounds.tree
    refine .bind (.any _) fun names _ => .bind (.any _) fun _ _ => .bind (.any _) fun _ _ => ?_
    exact .bind (.any _) fun _ _ =>
      .pure (tidyLoop_computedRange start.quiet_tree stop.quiet_tree step.quiet_tree)

mutual

theorem Action.tidy_tree : (a : Action) → Returns (tidyAll · = true) a.tree
  | .capture => by
    unfold Action.tree
    exact .pure rfl
  | .autofocus _ => by
    unfold Action.tree
    exact .pure (tidy_call (by decide) rfl)
  | .wait seconds => by
    unfold Action.tree
    refine .pure (tidy_call (by decide) ?_)
    simp [quietAll, seconds.quiet_tree]
  | .moveStage _ _ steps => by
    unfold Action.tree
    refine .bind (.any _) fun names _ => .pure (tidy_call (by decide) ?_)
    simp [quietAll, textTree, Script.Expr.quiet, steps.quiet_tree]
  | .moveStage3d _ x y z => by
    unfold Action.tree
    refine .bind (.any _) fun names _ => .pure (tidy_call (by decide) ?_)
    simp [quietAll, textTree, Script.Expr.quiet, x.quiet_tree, y.quiet_tree, z.quiet_tree]
  | .print text => by
    unfold Action.tree
    refine .bind (.any _) fun names _ => .pure (tidy_call (by decide) ?_)
    simp [quietAll, text.quiet_tree]
  | .set _ value => by
    unfold Action.tree
    exact .bind (.any _) fun names _ => .pure (tidy_set value.quiet_tree)
  | .change _ delta => by
    unfold Action.tree
    exact .bind (.any _) fun names _ => .pure (tidyAll_single delta.quiet_tree)
  | .choose branches otherwise => by
    unfold Action.tree
    refine .bind (tidy_branchTrees branches) fun bs hb => ?_
    refine .bind (tidy_otherwiseTree otherwise) fun o ho => .pure (tidyAll_single ?_)
    unfold Script.Statement.tidy
    rw [hb, ho]
    rfl
  | .countedLoop count body => by
    unfold Action.tree
    refine .bind count.tidy_tree fun loop hl => ?_
    exact .bind (tidy_chainTree body) fun ss hs => .pure (hl ss hs)
  | .whileLoop negated cond body => by
    unfold Action.tree
    refine .bind (.any _) fun names _ => .bind (tidy_chainTree body) fun ss hs => .pure ?_
    refine tidyAll_single ?_
    unfold Script.Statement.tidy
    rw [hs]
    cases negated <;> simp [Script.Expr.quiet, cond.quiet_tree]
  | .rangeLoop _ bounds body => by
    unfold Action.tree
    refine .bind (.any _) fun names _ => .bind bounds.tidy_tree fun loop hl => ?_
    exact .bind (tidy_chainTree body) fun ss hs => .pure (hl ss hs)
  | .exitLoop | .nextRound => by
    unfold Action.tree
    exact .pure rfl

theorem tidy_chainTree : (c : List (String × Action)) → Returns (tidyAll · = true) (chainTree c)
  | [] => by
    unfold chainTree
    exact .pure rfl
  | (id, action) :: rest => by
    unfold chainTree
    refine .bind action.tidy_tree fun ss hs => .bind (tidy_chainTree rest) fun ts ht => .pure ?_
    have hmarked : tidyAll (markTree id :: ss) = true := hs
    exact tidyAll_append hmarked ht

theorem tidy_branchTrees : (bs : List (Term × List (String × Action))) →
    Returns (tidyBranches · = true) (branchTrees bs)
  | [] => by
    unfold branchTrees
    exact .pure rfl
  | (cond, body) :: rest => by
    unfold branchTrees
    refine .bind (.any _) fun names _ => .bind (tidy_chainTree body) fun ss hs => ?_
    refine .bind (tidy_branchTrees rest) fun bs hb => .pure ?_
    unfold tidyBranches
    rw [cond.quiet_tree, hs, hb]
    rfl

theorem tidy_otherwiseTree : (o : Option (List (String × Action))) →
    Returns (tidyOtherwise · = true) (otherwiseTree o)
  | none => by
    unfold otherwiseTree
    exact .pure rfl
  | some body => by
    unfold otherwiseTree
    exact .bind (tidy_chainTree body) fun ss hs => .pure hs

end

theorem Item.tidy_tree (i : Item) : Returns (tidyAll · = true) i.tree := by
  cases i with
  | value term =>
    unfold Item.tree
    refine .bind (.any _) fun names _ => .pure (tidyAll_single ?_)
    unfold Script.Statement.tidy
    rw [term.quiet_tree, Bool.or_true]
  | action id a =>
    unfold Item.tree
    exact .bind a.tidy_tree fun ss hs => .pure hs

theorem tidy_stackTree (stack : List Item) : Returns (tidyAll · = true) (stackTree stack) := by
  induction stack with
  | nil => exact .pure rfl
  | cons item rest ih =>
    unfold stackTree
    exact .bind item.tidy_tree fun ss hs => .bind ih fun ts ht => .pure (tidyAll_append hs ht)

theorem tidy_stackTrees (plans : List (List Item)) :
    Returns (tidyAll · = true) (stackTrees plans) := by
  induction plans with
  | nil => exact .pure rfl
  | cons stack rest ih =>
    unfold stackTrees
    exact .bind (tidy_stackTree stack) fun ss hs => .bind ih fun ts ht =>
      .pure (tidyAll_append hs ht)

namespace Workspace

theorem tidy_planScript (names : Names) (plans : List (List Item)) :
    tidyAll (planScript names plans) = true := by
  have hheader : tidyAll (headerTree names) = true := by
    unfold headerTree
    generalize names.declared = idents
    induction idents with
    | nil => rfl
    | cons ident idents ih => exact ih
  exact tidyAll_append hheader (tidy_stackTrees plans names)

/-- Whatever the code of a workspace is read back as is tidy. -/
theorem tidy_of_compile {w : Workspace} {c : Compiled} (h : w.compile = .ok c)
    {program : Script.Program} (hp : Script.parse c.code = .ok program) : tidyAll program = true := by
  obtain ⟨plans, hplan, -⟩ := compile_eq_ok h
  rw [← script_of_parse h hp, ← (plan_script hplan).1]
  exact tidy_planScript w.names plans

end Workspace

theorem tidy_of_empty {program : Script.Program}
    (hp : Script.parse Compiled.empty.code = .ok program) : tidyAll program = true := by
  have hparse := WriteText.nil.parse
  change Script.parse "" = .ok program at hp
  rw [hp] at hparse
  cases hparse
  rfl

end ScopeBlocks
