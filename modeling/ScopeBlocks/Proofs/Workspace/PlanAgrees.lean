import ScopeBlocks.Proofs.Workspace.Translation

/-! The plan of a workspace has the script that its blocks stand for. -/
namespace ScopeBlocks.Block

theorem mapM_eq_ok {α β : Type} {f : α → Planned β} {P : α → β → Prop}
    (hf : ∀ a b, f a = .ok b → P a b) {l : List α} {bs : List β} (h : l.mapM f = .ok bs) :
    List.Forall₂ P l bs := by
  induction l generalizing bs with
  | nil =>
    cases h
    exact .nil
  | cons a l ih =>
    rw [List.mapM_cons] at h
    obtain ⟨b, hb, h⟩ := bind_eq_ok h
    obtain ⟨cs, hcs, h⟩ := bind_eq_ok h
    cases h
    exact .cons (hf a b hb) (ih hcs)

theorem socketCount_eq_ok {b : Block} {declared n : Nat} {words : List String}
    (h : b.socketCount declared words = .ok n) : n = b.sockets declared words := by
  unfold socketCount at h
  dsimp only at h
  split at h
  · cases h
  · cases h
    rfl

theorem arithmeticOp_eq_ok {b : Block} {op : Script.BinaryOp} (h : b.arithmeticOp = .ok op) :
    op = b.arithmetic := by
  unfold arithmeticOp at h
  unfold arithmetic
  split at h <;> cases h <;> simp_all

/-- Planned inputs of a block have the operands as their trees. -/
def Agree (names : Names) : Inputs → Operands → Prop :=
  List.Forall₂ fun i o => i.1 = o.1 ∧ ∀ t, i.2 = .ok t → t.tree names = o.2

section

variable {names : Names} {ins : Inputs} {ops : Operands}

theorem Agree.get (h : Agree names ins ops) {name : String} {default t : Term} {e : Script.Expr}
    (hd : default.tree names = e) (ht : ins.get name default = .ok t) :
    t.tree names = ops.get name e := by
  unfold Inputs.get at ht
  unfold Operands.get
  induction h with
  | nil =>
    cases ht
    exact hd
  | @cons i o ins ops hio _ ih =>
    obtain ⟨key, planned⟩ := i
    obtain ⟨key', tree⟩ := o
    obtain ⟨rfl, htree⟩ := hio
    rw [List.lookup_cons] at ht ⊢
    cases hkey : name == key with
    | true =>
      simp only [hkey] at ht ⊢
      exact htree t ht
    | false =>
      simp only [hkey] at ht ⊢
      exact ih ht

theorem zeroTree_eq : (Term.number 0).tree names = zeroTree := by
  unfold Term.tree
  rfl

theorem truthTree_eq (b : Bool) : (Term.truth b).tree names = truthTree b := by
  unfold Term.tree
  rfl

theorem textTree_eq (s : String) : (Term.text s).tree names = textTree s := by
  unfold Term.tree
  rfl

theorem Agree.operation (h : Agree names ins ops) {op : Script.BinaryOp} {left right : String}
    {default t : Term} {e : Script.Expr} (hd : default.tree names = e)
    (ht : binaryTerm ins op left right default = .ok t) :
    t.tree names = operationTree ops op left right e := by
  obtain ⟨l, hl, ht⟩ := bind_eq_ok ht
  obtain ⟨r, hr, ht⟩ := bind_eq_ok ht
  cases ht
  unfold Term.tree operationTree
  rw [h.get hd hl, h.get hd hr]

theorem joinTree_eq (parts : List Term) (before : Script.Expr) :
    joinTree names before parts =
      (parts.map (Term.tree names)).foldl (fun e part => .binary .add e part) before := by
  induction parts generalizing before with
  | nil =>
    unfold joinTree
    rfl
  | cons part parts ih =>
    unfold joinTree
    rw [ih]
    rfl

theorem Agree.parts (h : Agree names ins ops) {indices : List Nat} {parts : List Term}
    (hp : (indices.mapM fun i => ins.get s!"ADD{i}" (.text "")) = .ok parts) :
    (Term.join parts).tree names =
      partsTree (indices.map fun i => ops.get s!"ADD{i}" (textTree "")) := by
  have hparts := mapM_eq_ok (P := fun i t => t.tree names = ops.get s!"ADD{i}" (textTree ""))
    (fun _ _ ht => h.get (textTree_eq "") ht) hp
  unfold Term.tree partsTree
  rw [joinTree_eq]
  congr 1
  clear hp
  induction hparts with
  | nil => rfl
  | cons hpart _ ih => rw [List.map_cons, List.map_cons, hpart, ih]

theorem promptTree_eq {b : Block} {message : Term} {e : Script.Expr} (h : message.tree names = e) :
    (Term.prompt b.isNumericPrompt message).tree names = promptTree b e := by
  unfold Term.tree promptTree
  rw [h]

/-- The plan of a value block has the tree that the block has by itself. -/
theorem termOf_tree {variableOf : Block → String} {b : Block} {t : Term} (h : Agree names ins ops)
    (ht : termOf variableOf b ins = .ok t) :
    t.tree names = exprOf (fun c => names.identOf (variableOf c)) b ops := by
  unfold termOf at ht
  split at ht <;> rename_i hkind <;> simp only [exprOf, hkind]
  case h_1 | h_2 | h_3 | h_4 | h_5 | h_6 | h_7 =>
    cases ht
    unfold Term.tree
    rfl
  case h_8 =>
    obtain ⟨op, hop, ht⟩ := bind_eq_ok ht
    rw [← arithmeticOp_eq_ok hop]
    exact h.operation zeroTree_eq ht
  case h_9 | h_10 => exact h.operation zeroTree_eq ht
  case h_11 => exact h.operation (truthTree_eq false) ht
  case h_12 =>
    obtain ⟨operand, ho, ht⟩ := bind_eq_ok ht
    cases ht
    unfold Term.tree
    rw [h.get (truthTree_eq true) ho]
  case h_13 =>
    obtain ⟨n, hn, ht⟩ := bind_eq_ok ht
    obtain ⟨parts, hp, ht⟩ := bind_eq_ok ht
    cases ht
    rw [← socketCount_eq_ok hn]
    exact h.parts hp
  case h_14 =>
    cases ht
    exact promptTree_eq (textTree_eq _)
  case h_15 =>
    obtain ⟨message, hm, ht⟩ := bind_eq_ok ht
    cases ht
    exact promptTree_eq (h.get (textTree_eq "") hm)
  case h_16 =>
    split at ht <;> cases ht

end


mutual

theorem term_tree {names : Names} {variableOf : Block → String} : (b : Block) → {t : Term} →
    b.term variableOf = .ok t → t.tree names = b.expr fun c => names.identOf (variableOf c)
  | ⟨_, _, _, _, _, ⟨values⟩, _, _⟩, _, h => by
    unfold term at h
    unfold expr
    exact termOf_tree (inputs_agree values) h

theorem inputs_agree {names : Names} {variableOf : Block → String} :
    (values : List (String × Socket Block)) →
    Agree names (inputs variableOf values) (operands (fun c => names.identOf (variableOf c)) values)
  | [] => by
    unfold inputs operands
    exact .nil
  | (name, ⟨some b, _⟩) :: rest => by
    unfold inputs operands
    exact .cons ⟨rfl, fun _ => term_tree b⟩ (inputs_agree rest)
  | (name, ⟨none, some b⟩) :: rest => by
    unfold inputs operands
    exact .cons ⟨rfl, fun _ => term_tree b⟩ (inputs_agree rest)
  | (_, ⟨none, none⟩) :: rest => by
    unfold inputs operands
    exact inputs_agree rest

end

/-! Statements. -/

/-- Planned chains inside a block have the statements of the chains. -/
def Fits : Bodies → Inner → Prop :=
  List.Forall₂ fun p i => p.1 = i.1 ∧ ∀ c, p.2 = .ok c → chainTree c = i.2 ∧ chainProper c

theorem Fits.get {chains : Bodies} {ins : Inner} (h : Fits chains ins) {name : String} {c : Chain}
    (hc : chains.get name = .ok c) : chainTree c = ins.get name ∧ chainProper c := by
  unfold Bodies.get at hc
  unfold Inner.get
  induction h with
  | nil =>
    cases hc
    unfold chainTree chainProper
    exact ⟨rfl, trivial⟩
  | @cons p i chains ins hpi _ ih =>
    obtain ⟨key, planned⟩ := p
    obtain ⟨key', statements⟩ := i
    obtain ⟨rfl, hfit⟩ := hpi
    rw [List.lookup_cons] at hc ⊢
    cases hkey : name == key with
    | true =>
      simp only [hkey] at hc ⊢
      exact hfit c hc
    | false =>
      simp only [hkey] at hc ⊢
      exact ih hc

section

variable {variableOf : Block → String} {b : Block} {ins : Inputs} {ops : Names → Operands}
  {chains : Bodies} {inn : Inner}

theorem countOf_tree (h : ∀ names, Agree names ins (ops names)) {count : Count}
    (hc : b.countOf ins = .ok count) : count.tree = b.repeatTree ops := by
  unfold countOf at hc
  split at hc
  next hnone =>
    cases hc
    unfold repeatTree
    simp only [hnone, Count.tree]
    rfl
  next times hsome =>
    unfold repeatTree
    simp only [hsome]
    split at hc
    next hnumber =>
      cases hc
      rw [if_pos hnumber]
      rfl
    next hnumber =>
      obtain ⟨t, ht, hc⟩ := bind_eq_ok hc
      cases hc
      rw [if_neg hnumber]
      unfold Count.tree
      refine bind_congr fun stop => bind_congr fun counter => bind_congr fun names => ?_
      rw [(h names).get zeroTree_eq ht]

theorem boundsOf_tree (h : ∀ names, Agree names ins (ops names)) {bounds : Bounds} {ident : String}
    (hb : b.boundsOf ins = .ok bounds) : bounds.tree ident = b.forTree ident ops := by
  unfold boundsOf at hb
  split at hb
  next start stop step hstart hstop hstep =>
    cases hb
    unfold forTree
    simp only [hstart, hstop, hstep]
    rfl
  next hknown =>
    obtain ⟨start, hstart, hb⟩ := bind_eq_ok hb
    obtain ⟨stop, hstop, hb⟩ := bind_eq_ok hb
    obtain ⟨step, hstep, hb⟩ := bind_eq_ok hb
    cases hb
    unfold forTree
    split
    next x y z hx hy hz => exact absurd hz (hknown x y z hx hy)
    next =>
      unfold Bounds.tree
      refine bind_congr fun names => bind_congr fun s => bind_congr fun e => bind_congr fun i => ?_
      rw [(h names).get zeroTree_eq hstart, (h names).get zeroTree_eq hstop,
        (h names).get (e := Number.tree 1) (by unfold Term.tree; rfl) hstep]

theorem branchesOf_tree (h : ∀ names, Agree names ins (ops names)) (hf : Fits chains inn)
    {indices : List Nat} {branches : List (Term × Chain)}
    (hb : (indices.mapM fun i => do
      let cond ← ins.get s!"IF{i}" (.truth false)
      return (cond, ← chains.get s!"DO{i}")) = .ok branches) :
    branchTrees branches = branchesTree ops inn indices ∧ branchesProper branches ∧
      branches.length = indices.length := by
  induction indices generalizing branches with
  | nil =>
    cases hb
    unfold branchTrees branchesProper
    exact ⟨rfl, trivial, rfl⟩
  | cons i indices ih =>
    rw [List.mapM_cons] at hb
    obtain ⟨branch, hbranch, hb⟩ := bind_eq_ok hb
    obtain ⟨rest, hrest, hb⟩ := bind_eq_ok hb
    cases hb
    obtain ⟨cond, hcond, hbranch⟩ := bind_eq_ok hbranch
    obtain ⟨c, hc, hbranch⟩ := bind_eq_ok hbranch
    cases hbranch
    obtain ⟨htree, hproper, hlength⟩ := ih hrest
    obtain ⟨hbody, hbodyProper⟩ := hf.get hc
    refine ⟨?_, ?_, by simp [hlength]⟩
    · unfold branchTrees
      unfold branchesTree at htree ⊢
      rw [List.mapM_cons, ← htree, ← hbody]
      simp only [bind_assoc, pure_bind]
      refine bind_congr fun names => ?_
      rw [(h names).get (truthTree_eq false) hcond]
    · unfold branchesProper
      exact ⟨hbodyProper, hproper⟩

theorem foldl_max_le {f : Nat → Nat} (l : List Nat) (n : Nat) :
    n ≤ l.foldl (fun n i => max n (f i)) n := by
  induction l generalizing n with
  | nil => exact Nat.le_refl n
  | cons i l ih => exact Nat.le_trans (Nat.le_max_left n _) (ih _)

theorem branchCount_pos (b : Block) : 0 < b.branchCount := by
  have hdeclared : 0 < min (b.mutationCount "elseif" + 1) (Word.limit - 1) := by
    have hlimit : 0 < Word.limit - 1 := by decide
    omega
  exact Nat.lt_of_lt_of_le hdeclared (foldl_max_le _ _)

theorem chooseOf_tree (h : ∀ names, Agree names ins (ops names)) (hf : Fits chains inn) {a : Action}
    (ha : b.chooseOf ins chains = .ok a) : a.tree = b.chooseTree ops inn ∧ a.Proper := by
  obtain ⟨n, hn, hplanned⟩ := bind_eq_ok ha
  obtain ⟨branches, hbranches, hchoice⟩ := bind_eq_ok hplanned
  obtain rfl : n = b.branchCount := socketCount_eq_ok hn
  obtain ⟨htree, hproper, hlength⟩ := branchesOf_tree h hf hbranches
  have hne : branches ≠ [] := by
    rintro rfl
    have hpos := b.branchCount_pos
    rw [List.length_range] at hlength
    simp only [List.length_nil] at hlength
    omega
  unfold chooseTree
  rw [← htree]
  split at hchoice
  next helse =>
    obtain ⟨c, hc, hchosen⟩ := bind_eq_ok hchoice
    cases hchosen
    obtain ⟨hbody, hbodyProper⟩ := hf.get hc
    have hhas : b.hasElse = true := by simpa [hasElse] using helse
    constructor
    · unfold Action.tree otherwiseTree
      simp only [hhas, if_true, ← hbody, bind_assoc, pure_bind]
    · unfold Action.Proper otherwiseProper
      exact ⟨hne, hproper, hbodyProper⟩
  next helse =>
    cases hchoice
    have hhas : ¬ b.hasElse = true := by simpa [hasElse] using helse
    constructor
    · unfold Action.tree otherwiseTree
      simp only [hhas, Bool.false_eq_true, if_false, pure_bind]
    · unfold Action.Proper otherwiseProper
      exact ⟨hne, hproper, trivial⟩

/-- The plan of a statement block has the statements that the block has by itself. -/
theorem actionOf_tree (h : ∀ names, Agree names ins (ops names)) (hf : Fits chains inn) {a : Action}
    (ha : actionOf variableOf b ins chains = .ok a) :
    a.tree = ownOf variableOf b ops inn ∧ a.Proper := by
  unfold actionOf at ha
  split at ha <;> rename_i hkind <;> simp only [ownOf, hkind]
  case h_1 | h_2 | h_3 =>
    cases ha
    unfold Action.tree Action.Proper
    exact ⟨rfl, trivial⟩
  case h_4 | h_6 =>
    obtain ⟨t, ht, ha⟩ := bind_eq_ok ha
    cases ha
    unfold Action.tree Action.Proper
    refine ⟨bind_congr fun names => ?_, trivial⟩
    first
    | rw [(h names).get zeroTree_eq ht]
    | rw [(h names).get (textTree_eq "") ht]
  case h_5 =>
    obtain ⟨x, hx, ha⟩ := bind_eq_ok ha
    obtain ⟨y, hy, ha⟩ := bind_eq_ok ha
    obtain ⟨z, hz, ha⟩ := bind_eq_ok ha
    cases ha
    unfold Action.tree Action.Proper
    refine ⟨bind_congr fun names => ?_, trivial⟩
    rw [(h names).get zeroTree_eq hx, (h names).get zeroTree_eq hy, (h names).get zeroTree_eq hz]
  case h_7 | h_8 =>
    obtain ⟨t, ht, ha⟩ := bind_eq_ok ha
    cases ha
    unfold Action.tree Action.Proper
    refine ⟨bind_congr fun names => ?_, trivial⟩
    rw [(h names).get zeroTree_eq ht]
  case h_9 => exact chooseOf_tree h hf ha
  case h_10 =>
    obtain ⟨c, hc, ha⟩ := bind_eq_ok ha
    cases ha
    obtain ⟨hbody, hproper⟩ := hf.get hc
    unfold Action.tree Count.tree Action.Proper
    simp only [hbody, bind_assoc, pure_bind]
    exact ⟨trivial, hproper⟩
  case h_11 =>
    obtain ⟨count, hcount, ha⟩ := bind_eq_ok ha
    obtain ⟨c, hc, ha⟩ := bind_eq_ok ha
    cases ha
    obtain ⟨hbody, hproper⟩ := hf.get hc
    unfold Action.tree Action.Proper
    rw [hbody, countOf_tree h hcount]
    exact ⟨rfl, hproper⟩
  case h_12 =>
    obtain ⟨cond, hcond, ha⟩ := bind_eq_ok ha
    obtain ⟨c, hc, ha⟩ := bind_eq_ok ha
    cases ha
    obtain ⟨hbody, hproper⟩ := hf.get hc
    unfold Action.tree Action.Proper
    refine ⟨bind_congr fun names => ?_, hproper⟩
    rw [hbody, (h names).get (truthTree_eq false) hcond]
    simp only [decide_eq_true_eq]
  case h_13 =>
    obtain ⟨bounds, hbounds, ha⟩ := bind_eq_ok ha
    obtain ⟨c, hc, ha⟩ := bind_eq_ok ha
    cases ha
    obtain ⟨hbody, hproper⟩ := hf.get hc
    unfold Action.tree Action.Proper
    refine ⟨bind_congr fun names => ?_, hproper⟩
    rw [hbody, boundsOf_tree h hbounds]
  case h_14 =>
    cases ha
    split
    · unfold Action.tree Action.Proper
      exact ⟨rfl, trivial⟩
    · unfold Action.tree Action.Proper
      exact ⟨rfl, trivial⟩
  case h_15 => split at ha <;> cases ha

end

mutual

theorem action_tree {variableOf : Block → String} : (b : Block) → {a : Action} →
    b.action variableOf = .ok a → a.tree = b.own variableOf ∧ a.Proper
  | ⟨_, _, _, _, _, values, ⟨statements⟩, _⟩, _, h => by
    unfold action at h
    unfold own
    exact actionOf_tree (fun _ => inputs_agree values.entries) (bodies_fit statements) h

theorem chain_tree {variableOf : Block → String} : (c : List Block) → {planned : Chain} →
    chain variableOf c = .ok planned →
    chainTree planned = statementsOf variableOf c ∧ chainProper planned
  | [], _, h => by
    unfold chain at h
    cases h
    unfold chainTree statementsOf chainProper
    exact ⟨rfl, trivial⟩
  | b :: rest, planned, h => by
    unfold chain at h
    unfold statementsOf
    split at h
    next hoff =>
      rw [if_pos hoff]
      exact chain_tree rest h
    next hon =>
      obtain ⟨a, ha, h⟩ := bind_eq_ok h
      obtain ⟨more, hmore, h⟩ := bind_eq_ok h
      cases h
      obtain ⟨hown, hproper⟩ := action_tree b ha
      obtain ⟨htail, htailProper⟩ := chain_tree rest hmore
      unfold chainTree chainProper
      rw [if_neg hon, hown, htail]
      exact ⟨rfl, hproper, htailProper⟩

theorem bodies_fit {variableOf : Block → String} : (statements : List (String × List Block)) →
    Fits (bodies variableOf statements) (inner variableOf statements)
  | [] => by
    unfold bodies inner
    exact .nil
  | (_, c) :: rest => by
    unfold bodies inner
    exact .cons ⟨rfl, fun _ => chain_tree c⟩ (bodies_fit rest)

end

theorem item_tree {variableOf : Block → String} {b : Block} {i : Item}
    (h : item variableOf b = .ok i) : i.tree = b.itemTree variableOf ∧ i.Proper := by
  unfold item at h
  unfold itemTree
  split at h
  next hvalue =>
    obtain ⟨t, ht, h⟩ := bind_eq_ok h
    cases h
    rw [if_pos hvalue]
    unfold Item.tree Item.Proper
    refine ⟨bind_congr fun names => ?_, trivial⟩
    rw [term_tree b ht]
  next hvalue =>
    obtain ⟨a, ha, h⟩ := bind_eq_ok h
    cases h
    obtain ⟨hown, hproper⟩ := action_tree b ha
    rw [if_neg hvalue]
    unfold Item.tree Item.Proper
    dsimp only
    rw [hown]
    exact ⟨rfl, hproper⟩

end ScopeBlocks.Block

namespace ScopeBlocks

namespace Workspace

variable {w : Workspace}

theorem stackTree_eq {bs : List Block} {items : List Item}
    (h : bs.mapM (Block.item w.variableOf) = .ok items) :
    stackTree items = (do
      let parts ← bs.mapM (Block.itemTree w.variableOf)
      return parts.flatten) ∧ ∀ i ∈ items, i.Proper := by
  have hitems := Block.mapM_eq_ok (fun _ _ => Block.item_tree) h
  clear h
  induction hitems with
  | nil => exact ⟨rfl, by simp⟩
  | @cons b i bs items hi _ ih =>
    refine ⟨?_, fun j hj => (List.mem_cons.1 hj).elim (· ▸ hi.2) (ih.2 j)⟩
    unfold stackTree
    rw [ih.1, hi.1, List.mapM_cons]
    simp only [bind_assoc, pure_bind, List.flatten_cons]

theorem planStack_tree {stack : List Block} {items : List Item} (h : w.planStack stack = .ok items) :
    stackTree items = w.stackScript stack ∧ ∀ i ∈ items, i.Proper := stackTree_eq h

/-- The plan of a workspace has the script that the workspace has by itself. -/
theorem plan_script {plans : List (List Item)} (h : w.plan = .ok plans) :
    planScript w.names plans = w.script ∧ ∀ stack ∈ plans, ∀ i ∈ stack, i.Proper := by
  have hplans := Block.mapM_eq_ok (fun _ _ => planStack_tree) h
  suffices hrun : stackTrees plans = (do
      let parts ← w.orderedStacks.mapM w.stackScript
      return parts.flatten) ∧ ∀ stack ∈ plans, ∀ i ∈ stack, i.Proper by
    refine ⟨?_, hrun.2⟩
    unfold planScript script
    rw [hrun.1]
    rfl
  clear h
  generalize w.orderedStacks = blocks at hplans
  induction hplans with
  | nil => exact ⟨rfl, by simp⟩
  | @cons stack items blocks plans hstack _ ih =>
    refine ⟨?_, fun s hs => (List.mem_cons.1 hs).elim (· ▸ hstack.2) (ih.2 s)⟩
    unfold stackTrees
    rw [ih.1, hstack.1, List.mapM_cons]
    simp only [bind_assoc, pure_bind, List.flatten_cons]

end Workspace

end ScopeBlocks
