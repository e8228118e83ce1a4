import ScopeBlocks.Proofs.Script.Followed
import ScopeBlocks.Proofs.Workspace.TidyScript

/-! The scripts of workspaces mark no block without its statements: the mark of a block is followed by the
statements of the block, of which there is at least one. -/
namespace ScopeBlocks

open Script (followedAll followedBranches followedOtherwise)

theorem Script.Expr.not_isMark_of_quiet {e : Script.Expr} (h : e.quiet = true) : e.isMark = false := by
  unfold isMark
  split
  next => cases h
  next => rfl

/-- Statements of which there is one, every mark in them followed. -/
def Full (ss : List Script.Statement) : Prop := ss ≠ [] ∧ followedAll ss = true

theorem followedAll_append {ss ts : List Script.Statement} (hs : followedAll ss = true)
    (ht : followedAll ts = true) : followedAll (ss ++ ts) = true := by
  induction ss with
  | nil => exact ht
  | cons s ss ih =>
    unfold followedAll at hs
    simp only [Bool.and_eq_true] at hs
    obtain ⟨⟨hmark, hs⟩, hrest⟩ := hs
    have hmark' : (!(s.isMark && (ss ++ ts).isEmpty)) = true := by
      cases ss with
      | nil =>
        have hs : s.isMark = false := by simpa using hmark
        simp [hs]
      | cons => simp
    rw [List.cons_append]
    unfold followedAll
    rw [hmark', hs, ih hrest]
    rfl

theorem full_single {s : Script.Statement} (hmark : s.isMark = false) (h : s.followed = true) :
    Full [s] := by
  refine ⟨by simp, ?_⟩
  unfold followedAll followedAll
  rw [hmark, h]
  rfl

theorem full_eval {e : Script.Expr} (h : e.quiet = true) : Full [.eval e] :=
  full_single (Script.Expr.not_isMark_of_quiet h) rfl

theorem full_call {p : Script.Primitive} {args : List Script.Expr} (hp : p ≠ .mark) :
    Full [callTree p args] := by
  refine full_single ?_ rfl
  cases p with
  | mark => exact absurd rfl hp
  | print | prompt | waitSeconds | capture | getPosition | autofocus | getSharpnessMetric |
    moveStage | moveStage3d => rfl

theorem full_mark {id : String} {ss : List Script.Statement} (h : Full ss) : Full (markTree id :: ss) := by
  obtain ⟨hne, hs⟩ := h
  refine ⟨by simp, ?_⟩
  cases ss with
  | nil => exact absurd rfl hne
  | cons => exact hs

/-- Loops that are full where their bodies have their marks followed. -/
def FullLoop (loop : LoopTree) : Prop := ∀ ss, followedAll ss = true → Full (loop ss)

theorem full_counted {counter : String} {times : Script.Expr} :
    FullLoop fun body => [countedTree counter times body] := by
  intro ss hs
  refine full_single rfl ?_
  unfold countedTree Script.Statement.followed
  exact hs

theorem full_range {ident : String} {start stop step : Number} :
    FullLoop fun body => [rangeTree ident start stop step body] := by
  intro ss hs
  unfold rangeTree
  split
  refine full_single rfl ?_
  unfold Script.Statement.followed
  exact hs

theorem Count.full_tree (c : Count) : Returns FullLoop c.tree := by
  cases c with
  | fixed times =>
    unfold Count.tree
    exact .bind (.any _) fun _ _ => .pure full_counted
  | computed times =>
    unfold Count.tree
    refine .bind (.any _) fun _ _ => .bind (.any _) fun _ _ => .bind (.any _) fun names _ => ?_
    refine .pure fun ss hs => ⟨by simp, ?_⟩
    exact (full_counted ss hs).2

theorem Bounds.full_tree {ident : String} (b : Bounds) : Returns FullLoop (b.tree ident) := by
  cases b with
  | fixed start stop step =>
    unfold Bounds.tree
    exact .pure full_range
  | computed start stop step =>
    unfold Bounds.tree
    refine .bind (.any _) fun names _ => .bind (.any _) fun _ _ => .bind (.any _) fun _ _ => ?_
    refine .bind (.any _) fun _ _ => .pure fun ss hs => ⟨by simp [rangeSetupTree], ?_⟩
    refine followedAll_append (by simp [rangeSetupTree, followedAll, followedBranches,
      followedOtherwise, Script.Statement.followed, Script.Statement.isMark]) (full_single rfl ?_).2
    unfold computedRangeTree Script.Statement.followed
    exact hs

mutual

theorem Action.full_tree : (a : Action) → Returns Full a.tree
  | .capture | .autofocus _ | .wait _ => by
    unfold Action.tree
    exact .pure (full_call (by decide))
  | .moveStage _ _ _ | .moveStage3d _ _ _ _ | .print _ => by
    unfold Action.tree
    exact .bind (.any _) fun names _ => .pure (full_call (by decide))
  | .set _ _ | .change _ _ => by
    unfold Action.tree
    exact .bind (.any _) fun names _ => .pure (full_single rfl rfl)
  | .choose branches otherwise => by
    unfold Action.tree
    refine .bind (followed_branchTrees branches) fun bs hb => ?_
    refine .bind (followed_otherwiseTree otherwise) fun o ho => .pure (full_single rfl ?_)
    unfold Script.Statement.followed
    rw [hb, ho]
    rfl
  | .countedLoop count body => by
    unfold Action.tree
    refine .bind count.full_tree fun loop hl => ?_
    exact .bind (followed_chainTree body) fun ss hs => .pure (hl ss hs)
  | .whileLoop negated cond body => by
    unfold Action.tree
    refine .bind (.any _) fun names _ => .bind (followed_chainTree body) fun ss hs =>
      .pure (full_single rfl ?_)
    unfold Script.Statement.followed
    exact hs
  | .rangeLoop _ bounds body => by
    unfold Action.tree
    refine .bind (.any _) fun names _ => .bind bounds.full_tree fun loop hl => ?_
    exact .bind (followed_chainTree body) fun ss hs => .pure (hl ss hs)
  | .exitLoop | .nextRound => by
    unfold Action.tree
    exact .pure (full_single rfl rfl)

theorem followed_chainTree : (c : List (String × Action)) →
    Returns (followedAll · = true) (chainTree c)
  | [] => by
    unfold chainTree
    exact .pure rfl
  | (id, action) :: rest => by
    unfold chainTree
    refine .bind action.full_tree fun ss hs => .bind (followed_chainTree rest) fun ts ht => .pure ?_
    exact followedAll_append (full_mark hs).2 ht

theorem followed_branchTrees : (bs : List (Term × List (String × Action))) →
    Returns (followedBranches · = true) (branchTrees bs)
  | [] => by
    unfold branchTrees
    exact .pure rfl
  | (cond, body) :: rest => by
    unfold branchTrees
    refine .bind (.any _) fun names _ => .bind (followed_chainTree body) fun ss hs => ?_
    refine .bind (followed_branchTrees rest) fun bs hb => .pure ?_
    unfold followedBranches
    rw [hs, hb]
    rfl

theorem followed_otherwiseTree : (o : Option (List (String × Action))) →
    Returns (followedOtherwise · = true) (otherwiseTree o)
  | none => by
    unfold otherwiseTree
    exact .pure rfl
  | some body => by
    unfold otherwiseTree
    exact .bind (followed_chainTree body) fun ss hs => .pure hs

end

theorem Item.full_tree (i : Item) : Returns Full i.tree := by
  cases i with
  | value term =>
    unfold Item.tree
    exact .bind (.any _) fun names _ => .pure (full_eval term.quiet_tree)
  | action id a =>
    unfold Item.tree
    exact .bind a.full_tree fun ss hs => .pure (full_mark hs)

theorem followed_stackTree (stack : List Item) : Returns (followedAll · = true) (stackTree stack) := by
  induction stack with
  | nil => exact .pure rfl
  | cons item rest ih =>
    unfold stackTree
    exact .bind item.full_tree fun ss hs => .bind ih fun ts ht =>
      .pure (followedAll_append hs.2 ht)

theorem followed_stackTrees (plans : List (List Item)) :
    Returns (followedAll · = true) (stackTrees plans) := by
  induction plans with
  | nil => exact .pure rfl
  | cons stack rest ih =>
    unfold stackTrees
    exact .bind (followed_stackTree stack) fun ss hs => .bind ih fun ts ht =>
      .pure (followedAll_append hs ht)

namespace Workspace

theorem followed_planScript (names : Names) (plans : List (List Item)) :
    followedAll (planScript names plans) = true := by
  have hheader : followedAll (headerTree names) = true := by
    unfold headerTree
    generalize names.declared = idents
    induction idents with
    | nil => rfl
    | cons ident idents ih => exact ih
  exact followedAll_append hheader (followed_stackTrees plans names)

/-- In whatever the code of a workspace is read back as, every mark is followed. -/
theorem followed_of_compile {w : Workspace} {c : Compiled} (h : w.compile = .ok c)
    {program : Script.Program} (hp : Script.parse c.code = .ok program) :
    followedAll program = true := by
  obtain ⟨plans, hplan, -⟩ := compile_eq_ok h
  rw [← script_of_parse h hp, ← (plan_script hplan).1]
  exact followed_planScript w.names plans

end Workspace

end ScopeBlocks
