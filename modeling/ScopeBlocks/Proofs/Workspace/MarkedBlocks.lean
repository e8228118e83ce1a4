import ScopeBlocks.Proofs.Script.Marks
import ScopeBlocks.Proofs.Workspace.BlockOrder
import ScopeBlocks.Proofs.Workspace.FollowedScript
import ScopeBlocks.Proofs.Workspace.LoopBodies

/-! The blocks that a script marks. Read in the order of its text, a script marks the enabled statement blocks of its
workspace in running order, every mark directly before the code of its block. -/
namespace ScopeBlocks

open Script (MarkedAs markedAll markedBranches markedOtherwise)

/-! Codings under growing names. -/

/-- Whether a coding gives results of one kind and only adds helpers, whatever helpers there are already. -/
def Adding {α : Type} (n : Names) (P : α → Prop) (m : Coding α) : Prop :=
  ∀ names, n.Adds names → P (m names).1 ∧ n.Adds (m names).2

namespace Adding

variable {α β : Type} {n : Names} {P : α → Prop} {Q : β → Prop}

theorem pure {a : α} (h : P a) : Adding n P (Pure.pure a) := fun _ hn => ⟨h, hn⟩

theorem bind {m : Coding α} {f : α → Coding β} (h : Adding n P m) (hf : ∀ a, P a → Adding n Q (f a)) :
    Adding n Q (m >>= f) := by
  intro names hn
  obtain ⟨ha, hn'⟩ := h names hn
  exact hf _ ha _ hn'

theorem get : Adding n n.Adds MonadState.get := fun _ hn => ⟨hn, hn⟩

theorem helper (base : String) : Adding n (fun _ => True) (helper base) := fun _ hn => ⟨trivial, hn.distinct base⟩

end Adding

namespace Block

variable {v : Block → String} {n : Names} {b : Block}

variable (v n) in
/-- Whether code begins with the mark of a block and the code of the block, with whatever helpers. -/
def CodedBy (b : Block) (code : List Script.Statement) : Prop :=
  ∃ names, n.Adds names ∧ markTree b.id :: (b.own v names).1 <+: code

theorem CodedBy.extend (b : Block) (code more : List Script.Statement) (h : CodedBy v n b code) (hmore : code <+: more) :
    CodedBy v n b more := by
  obtain ⟨names, hadds, hprefix⟩ := h
  exact ⟨names, hadds, hprefix.trans hmore⟩

/-! Loops and choices. -/

section

variable {R : Block → List Script.Statement → Prop} {ops : Names → Operands} {inn : Inner}

/-- Whether a loop marks nothing but what its body marks. -/
def Wraps (loop : LoopTree) : Prop := ∀ ss, markedAll (loop ss) = markedAll ss

theorem markedAll_single {s : Script.Statement} (h : s.isMark = false) : markedAll [s] = s.marked := by
  rw [markedAll, h]
  simp [markedAll]

theorem wraps_counted (counter : String) (times : Script.Expr) : Wraps fun body => [countedTree counter times body] :=
  fun _ => markedAll_single rfl

theorem wraps_range (ident : String) (start stop step : Number) :
    Wraps fun body => [rangeTree ident start stop step body] := by
  intro ss
  unfold rangeTree
  split
  exact markedAll_single rfl

theorem repeatTree_wraps : Adding n Wraps (b.repeatTree ops) := by
  unfold repeatTree
  split
  · exact .bind (.helper _) fun _ _ => .pure (wraps_counted _ _)
  · split
    · exact .bind (.helper _) fun _ _ => .pure (wraps_counted _ _)
    · refine .bind (.helper _) fun _ _ => .bind (.helper _) fun _ _ => .bind .get fun _ _ => .pure fun ss => ?_
      exact wraps_counted _ _ ss

theorem forTree_wraps {ident : String} : Adding n Wraps (b.forTree ident ops) := by
  unfold forTree
  split
  · exact .pure (wraps_range _ _ _ _)
  · refine .bind .get fun _ _ => .bind (.helper _) fun _ _ => .bind (.helper _) fun _ _ => ?_
    exact .bind (.helper _) fun _ _ => .pure fun ss => markedAll_single rfl

variable {f : String → List Block}

theorem branchesTree_marked {indices : List Nat}
    (hdo : ∀ i ∈ indices, Adding n (MarkedAs R (f s!"DO{i}")) (inn.get s!"DO{i}")) :
    Adding n (fun bs => List.Forall₂ R (indices.flatMap fun i => f s!"DO{i}") (markedBranches bs))
      (branchesTree ops inn indices) := by
  unfold branchesTree
  induction indices with
  | nil => exact .pure .nil
  | cons i indices ih =>
    rw [List.mapM_cons]
    simp only [bind_assoc, pure_bind]
    refine .bind .get fun _ _ => .bind (hdo i List.mem_cons_self) fun body hbody => ?_
    refine .bind (ih fun j hj => hdo j (List.mem_cons_of_mem _ hj)) fun bs hbs => .pure ?_
    exact List.rel_append hbody hbs

theorem chooseTree_marked (helse : b.hasElse = true → Adding n (MarkedAs R (f "ELSE")) (inn.get "ELSE"))
    (hdo : ∀ i < b.branchCount, Adding n (MarkedAs R (f s!"DO{i}")) (inn.get s!"DO{i}")) :
    Adding n (MarkedAs R ((List.range b.branchCount).flatMap (fun i => f s!"DO{i}") ++
      if b.hasElse then f "ELSE" else [])) (b.chooseTree ops inn) := by
  unfold chooseTree
  refine .bind (branchesTree_marked fun i hi => hdo i (List.mem_range.1 hi)) fun branches hbranches => ?_
  split
  next h =>
    refine .bind (helse h) fun body hbody => .pure ?_
    unfold MarkedAs
    rw [markedAll_single rfl]
    exact List.rel_append hbranches hbody
  next =>
    refine .pure ?_
    unfold MarkedAs
    rw [markedAll_single rfl]
    exact List.rel_append hbranches .nil

theorem ownOf_marked (hinner : ∀ name ∈ b.chainNames, Adding n (MarkedAs R (f name)) (inn.get name)) :
    Adding n (MarkedAs R (b.chainNames.flatMap f)) (ownOf v b ops inn) := by
  have hsimple (hkind : b.chainNames = []) {ss : List Script.Statement} (hss : markedAll ss = []) :
      MarkedAs R (b.chainNames.flatMap f) ss := by
    unfold MarkedAs
    rw [hkind, hss]
    exact .nil
  have hbody (hloop : b.isLoop = true) : Adding n (MarkedAs R (b.chainNames.flatMap f)) (inn.get "DO") := by
    rw [chainNames_loop hloop] at hinner ⊢
    simpa using hinner "DO" List.mem_cons_self
  unfold ownOf
  split <;> rename_i hkind
  case h_1 | h_2 | h_3 => exact .pure (hsimple (by simp [chainNames, isLoop, hkind]) rfl)
  case h_4 | h_5 | h_6 | h_7 | h_8 =>
    exact .bind .get fun _ _ => .pure (hsimple (by simp [chainNames, isLoop, hkind]) rfl)
  case h_9 =>
    rw [flatMap_chainNames hkind]
    exact chooseTree_marked (fun h => hinner _ (else_mem_chainNames hkind h)) fun i hi =>
      hinner _ (branch_mem_chainNames hkind hi)
  case h_10 =>
    refine .bind (.helper _) fun counter _ => .bind (hbody (by simp [isLoop, hkind])) fun ss hs => .pure ?_
    unfold MarkedAs
    rwa [wraps_counted counter _ ss]
  case h_11 =>
    refine .bind repeatTree_wraps fun loop hl => .bind (hbody (by simp [isLoop, hkind])) fun ss hs => .pure ?_
    unfold MarkedAs
    rwa [hl]
  case h_12 =>
    refine .bind .get fun _ _ => .bind (hbody (by simp [isLoop, hkind])) fun ss hs => .pure ?_
    unfold MarkedAs
    rwa [markedAll_single rfl]
  case h_13 =>
    refine .bind .get fun _ _ => .bind forTree_wraps fun loop hl => ?_
    refine .bind (hbody (by simp [isLoop, hkind])) fun ss hs => .pure ?_
    unfold MarkedAs
    rwa [hl]
  case h_14 =>
    refine .pure (hsimple (by simp [chainNames, isLoop, hkind]) ?_)
    split <;> rfl
  case h_15 =>
    have hnames : b.chainNames = [] := by simp_all [chainNames, isLoop]
    exact .pure (hsimple hnames rfl)

end

mutual

/-- The mark and the code of a block mark the block and those in its chains, in order. -/
theorem own_marked : (b : Block) → Adding n
    (fun ss => MarkedAs (CodedBy v n) (b.sequence chainNames) (markTree b.id :: ss)) (b.own v)
  | ⟨id, kind, position, disabled, fields, values, ⟨statements⟩, mutation⟩ => by
    intro names hn
    rw [sequence_eq, own]
    obtain ⟨hmarks, hadds⟩ := ownOf_marked (fun name _ => inner_marked statements name) names hn
    exact ⟨.cons ⟨names, hn, by rw [own]⟩ hmarks, hadds⟩

theorem statementsOf_marked : (bs : List Block) →
    Adding n (MarkedAs (CodedBy v n) (chainSequence chainNames bs)) (statementsOf v bs)
  | [] => .pure .nil
  | b :: rest => by
    have hrest := statementsOf_marked rest
    unfold statementsOf chainSequence
    split
    · exact hrest
    · exact .bind (own_marked b) fun ss hs => .bind hrest fun ts ht => .pure (hs.append CodedBy.extend ht)

theorem inner_marked : (statements : List (String × List Block)) → (name : String) →
    Adding n (MarkedAs (CodedBy v n) (((sequences chainNames statements).lookup name).getD []))
      ((inner v statements).get name)
  | [], _ => .pure .nil
  | (key, c) :: rest, name => by
    unfold sequences inner Inner.get
    rw [List.lookup_cons, List.lookup_cons]
    cases name == key with
    | true => exact statementsOf_marked c
    | false => exact inner_marked rest name

end

/-! Stacks. -/

theorem not_isMark_partsTree (parts : List Script.Expr) : (partsTree parts).isMark = false := by
  have hsum (parts : List Script.Expr) : ∀ before : Script.Expr, before.isMark = false →
      (parts.foldl (fun e part => .binary .add e part) before).isMark = false := by
    induction parts with
    | nil => exact fun _ h => h
    | cons part parts ih => exact fun _ _ => ih _ rfl
  exact hsum parts _ rfl

theorem not_isMark_expr (ident : Block → String) (b : Block) : (b.expr ident).isMark = false := by
  obtain ⟨id, kind, position, disabled, fields, ⟨values⟩, statements, mutation⟩ := b
  unfold expr exprOf
  split
  case h_1 => exact Script.Expr.not_isMark_of_quiet (Number.quiet_tree _)
  case h_13 => exact not_isMark_partsTree _
  all_goals rfl

/-- The statement blocks that a block in a stack runs; a value there is computed and dropped. -/
def itemSequence (chains : Block → List String) (b : Block) : List Block :=
  if Shape.ofKind? b.kind = some .value then [] else b.sequence chains

theorem itemTree_marked (b : Block) :
    Adding n (MarkedAs (CodedBy v n) (b.itemSequence chainNames)) (b.itemTree v) := by
  unfold itemTree itemSequence
  split
  · refine .bind .get fun names _ => .pure ?_
    have hvalue : (Script.Statement.eval (b.expr fun c => names.identOf (v c))).isMark = false :=
      not_isMark_expr _ b
    unfold MarkedAs
    rw [markedAll_single hvalue]
    exact .nil
  · exact .bind (own_marked b) fun ss hs => .pure hs

end Block

namespace Workspace

variable {w : Workspace} {n : Names}

def sequence (w : Workspace) (chains : Block → List String) : List Block :=
  w.orderedStacks.flatMap fun stack => (stack.filter (!·.disabled)).flatMap (Block.itemSequence chains)

theorem mapM_marked {ι : Type} {f : ι → List Block} {g : ι → Coding (List Script.Statement)} {v : Block → String}
    (h : ∀ i, Adding n (MarkedAs (Block.CodedBy v n) (f i)) (g i)) (l : List ι) :
    Adding n (fun parts => MarkedAs (Block.CodedBy v n) (l.flatMap f) parts.flatten) (l.mapM g) := by
  induction l with
  | nil => exact .pure .nil
  | cons i l ih =>
    rw [List.mapM_cons]
    exact .bind (h i) fun ss hs => .bind ih fun parts hp => .pure (hs.append Block.CodedBy.extend hp)

theorem stackScript_marked (stack : List Block) :
    Adding n (MarkedAs (Block.CodedBy w.variableOf n)
      ((stack.filter (!·.disabled)).flatMap (Block.itemSequence Block.chainNames))) (w.stackScript stack) :=
  .bind (mapM_marked Block.itemTree_marked _) fun _ hp => .pure hp

theorem markedAll_header (names : Names) : markedAll (headerTree names) = [] := by
  unfold headerTree
  induction names.declared with
  | nil => rfl
  | cons ident idents ih => exact ih

/-- The script of a workspace marks the blocks that it generates, each directly before its code. -/
theorem script_marked (w : Workspace) :
    MarkedAs (Block.CodedBy w.variableOf w.names) (w.sequence Block.chainNames) w.script := by
  have hstacks := (mapM_marked (stackScript_marked (w := w)) w.orderedStacks) w.names .refl
  have hheader : MarkedAs (Block.CodedBy w.variableOf w.names) [] (headerTree w.names) := by
    unfold MarkedAs
    rw [markedAll_header]
    exact .nil
  exact hheader.append Block.CodedBy.extend hstacks.1

end Workspace

/-! Plans. -/

namespace Block

variable {v : Block → String} {b : Block}

variable (v) in
def Plans (id : String) (b : Block) : Prop := id = b.id ∧ ∃ a, b.action v = .ok a

section

variable {ins : Inputs} {bodies : Bodies} {f : String → List Block}
  (hbodies : ∀ name c, bodies.get name = .ok c → List.Forall₂ (Plans v) (chainIds c) (f name))

include hbodies

theorem branchesOf_ids {indices : List Nat} {branches : List (Term × Chain)}
    (h : (indices.mapM fun i => do
      let cond ← ins.get s!"IF{i}" (.truth false)
      return (cond, ← bodies.get s!"DO{i}")) = .ok branches) :
    List.Forall₂ (Plans v) (branchIds branches) (indices.flatMap fun i => f s!"DO{i}") := by
  have hbranches := mapM_eq_ok (P := fun i branch => bodies.get s!"DO{i}" = .ok branch.2) (fun i branch hbranch => by
    obtain ⟨cond, -, hplanned⟩ := bind_eq_ok hbranch
    obtain ⟨c, hc, hplanned⟩ := bind_eq_ok hplanned
    cases hplanned
    exact hc) h
  clear h
  induction hbranches with
  | nil => exact .nil
  | @cons i branch indices branches hbranch _ ih =>
    rw [branchIds, List.flatMap_cons]
    exact List.rel_append (hbodies _ _ hbranch) ih

theorem chooseOf_ids {a : Action} (h : b.chooseOf ins bodies = .ok a) :
    List.Forall₂ (Plans v) a.ids ((List.range b.branchCount).flatMap (fun i => f s!"DO{i}") ++
      if b.hasElse then f "ELSE" else []) := by
  obtain ⟨count, hcount, hplanned⟩ := bind_eq_ok h
  obtain ⟨branches, hbranches, hchoice⟩ := bind_eq_ok hplanned
  obtain rfl : count = b.branchCount := socketCount_eq_ok hcount
  have hids := branchesOf_ids hbodies hbranches
  split at hchoice
  next helse =>
    obtain ⟨c, hc, hchosen⟩ := bind_eq_ok hchoice
    cases hchosen
    have hhas : b.hasElse = true := by simpa [hasElse] using helse
    rw [if_pos hhas]
    exact List.rel_append hids (hbodies _ _ hc)
  next helse =>
    cases hchoice
    have hhas : ¬ b.hasElse = true := by simpa [hasElse] using helse
    rw [if_neg hhas]
    exact List.rel_append hids .nil

theorem actionOf_ids {a : Action} (h : actionOf v b ins bodies = .ok a) :
    List.Forall₂ (Plans v) a.ids (b.chainNames.flatMap f) := by
  have hsimple (hnames : b.chainNames = []) : List.Forall₂ (Plans v) [] (b.chainNames.flatMap f) := by
    rw [hnames]
    exact .nil
  have hbody (hloop : b.isLoop = true) {c : Chain} (hc : bodies.get "DO" = .ok c) :
      List.Forall₂ (Plans v) (chainIds c) (b.chainNames.flatMap f) := by
    rw [chainNames_loop hloop]
    simpa using hbodies _ _ hc
  unfold actionOf at h
  split at h <;> rename_i hkind
  case h_1 | h_2 | h_3 | h_14 =>
    cases h
    have hnames : b.chainNames = [] := by simp [chainNames, isLoop, hkind]
    first
    | exact hsimple hnames
    | split <;> exact hsimple hnames
  case h_4 | h_6 | h_7 | h_8 =>
    obtain ⟨t, -, h⟩ := bind_eq_ok h
    cases h
    exact hsimple (by simp [chainNames, isLoop, hkind])
  case h_5 =>
    obtain ⟨x, -, h⟩ := bind_eq_ok h
    obtain ⟨y, -, h⟩ := bind_eq_ok h
    obtain ⟨z, -, h⟩ := bind_eq_ok h
    cases h
    exact hsimple (by simp [chainNames, isLoop, hkind])
  case h_9 =>
    rw [flatMap_chainNames hkind]
    exact chooseOf_ids hbodies h
  case h_10 =>
    obtain ⟨c, hc, h⟩ := bind_eq_ok h
    cases h
    exact hbody (by simp [isLoop, hkind]) hc
  case h_11 | h_12 | h_13 =>
    obtain ⟨head, -, h⟩ := bind_eq_ok h
    obtain ⟨c, hc, h⟩ := bind_eq_ok h
    cases h
    exact hbody (by simp [isLoop, hkind]) hc
  case h_15 => split at h <;> cases h

end

mutual

/-- The ids of a block and of those in its plan are the ids of the blocks that it generates, each with a plan. -/
theorem action_ids : (b : Block) → {a : Action} → b.action v = .ok a →
    List.Forall₂ (Plans v) (b.id :: a.ids) (b.sequence chainNames)
  | ⟨id, kind, position, disabled, fields, values, ⟨statements⟩, mutation⟩, a, h => by
    have hself := h
    rw [action] at h
    rw [sequence_eq]
    exact .cons ⟨rfl, a, hself⟩ (actionOf_ids (fun name _ => bodies_ids statements name) h)

theorem chain_ids : (bs : List Block) → {c : Chain} → chain v bs = .ok c →
    List.Forall₂ (Plans v) (chainIds c) (chainSequence chainNames bs)
  | [], _, h => by
    cases h
    exact .nil
  | b :: rest, _, h => by
    unfold chain at h
    unfold chainSequence
    split at h
    next hoff =>
      rw [if_pos hoff]
      exact chain_ids rest h
    next hon =>
      obtain ⟨a, ha, h⟩ := bind_eq_ok h
      obtain ⟨more, hmore, h⟩ := bind_eq_ok h
      cases h
      rw [if_neg hon, chainIds]
      exact List.rel_append (action_ids b ha) (chain_ids rest hmore)

theorem bodies_ids : (statements : List (String × List Block)) → (name : String) → {c : Chain} →
    (bodies v statements).get name = .ok c →
    List.Forall₂ (Plans v) (chainIds c) (((sequences chainNames statements).lookup name).getD [])
  | [], _, _, h => by
    cases h
    exact .nil
  | (key, bs) :: rest, name, _, h => by
    unfold bodies Bodies.get at h
    unfold sequences
    rw [List.lookup_cons] at h ⊢
    cases hkey : name == key with
    | true =>
      rw [hkey] at h
      exact chain_ids bs h
    | false =>
      rw [hkey] at h
      exact bodies_ids rest name h

end

theorem item_ids {i : Item} (h : item v b = .ok i) :
    List.Forall₂ (Plans v) i.ids (b.itemSequence chainNames) := by
  unfold item at h
  unfold itemSequence
  split at h
  next hvalue =>
    obtain ⟨t, -, h⟩ := bind_eq_ok h
    cases h
    rw [if_pos hvalue]
    exact .nil
  next hvalue =>
    obtain ⟨a, ha, h⟩ := bind_eq_ok h
    cases h
    rw [if_neg hvalue]
    exact action_ids b ha

end Block

namespace Workspace

variable {w : Workspace}

theorem flatMap_forall₂ {α β ι κ : Type} {P : ι → κ → Prop} {R : α → β → Prop} {f : ι → List α} {g : κ → List β}
    {is : List ι} {ks : List κ} (h : List.Forall₂ P is ks) (hR : ∀ i k, P i k → List.Forall₂ R (f i) (g k)) :
    List.Forall₂ R (is.flatMap f) (ks.flatMap g) := by
  induction h with
  | nil => exact .nil
  | cons hik _ ih => exact List.rel_append (hR _ _ hik) ih

/-- The ids that a workspace compiles to are those of the blocks that it generates, each with a plan. -/
theorem compile_ids {c : Compiled} (h : w.compile = .ok c) :
    List.Forall₂ (Block.Plans w.variableOf) c.ids (w.sequence Block.chainNames) := by
  obtain ⟨plans, hplan, -, hids⟩ := compile_eq_ok h
  rw [hids]
  have hplans := Block.mapM_eq_ok (P := fun stack items => w.planStack stack = .ok items) (fun _ _ h => h) hplan
  refine flatMap_forall₂ hplans.flip fun items stack hitems => ?_
  have hitems := Block.mapM_eq_ok (P := fun b i => Block.item w.variableOf b = .ok i) (fun _ _ h => h) hitems
  exact flatMap_forall₂ hitems.flip fun i b hi => Block.item_ids hi

end Workspace

/-! Conditions. -/

namespace Block

section

mutual

theorem inside_of_mem : (b : Block) → {d : Block} → d ∈ b.sequence chainNames → ∃ l, b.Inside l d
  | ⟨id, kind, position, disabled, fields, values, ⟨statements⟩, mutation⟩, d, h => by
    rw [sequence_eq] at h
    obtain rfl | hchains := List.mem_cons.1 h
    · exact ⟨false, .here⟩
    · obtain ⟨name, hname, hd⟩ := List.mem_flatMap.1 hchains
      obtain ⟨bs, hlookup, b, hb, hon, l, hinside⟩ := inside_of_mem_sequences statements name hd
      exact ⟨_, .inChain hname hlookup hb hon hinside⟩

theorem inside_of_mem_chain : (bs : List Block) → {d : Block} → d ∈ chainSequence chainNames bs →
    ∃ b ∈ bs, b.disabled = false ∧ ∃ l, b.Inside l d
  | b :: rest, d, h => by
    unfold chainSequence at h
    split at h
    next =>
      obtain ⟨c, hc, hinside⟩ := inside_of_mem_chain rest h
      exact ⟨c, List.mem_cons_of_mem _ hc, hinside⟩
    next hon =>
      obtain hfirst | hrest := List.mem_append.1 h
      · exact ⟨b, List.mem_cons_self, by simpa using hon, inside_of_mem b hfirst⟩
      · obtain ⟨c, hc, hinside⟩ := inside_of_mem_chain rest hrest
        exact ⟨c, List.mem_cons_of_mem _ hc, hinside⟩

theorem inside_of_mem_sequences : (statements : List (String × List Block)) → (name : String) → {d : Block} →
    d ∈ ((sequences chainNames statements).lookup name).getD [] →
    ∃ bs, statements.lookup name = some bs ∧ ∃ b ∈ bs, b.disabled = false ∧ ∃ l, b.Inside l d
  | (key, bs) :: rest, name, d, h => by
    unfold sequences at h
    rw [List.lookup_cons] at h ⊢
    cases hkey : name == key with
    | true =>
      rw [hkey] at h
      exact ⟨bs, rfl, inside_of_mem_chain bs h⟩
    | false =>
      rw [hkey] at h
      exact inside_of_mem_sequences rest name h

end

end

theorem lookup_operands {ident : Block → String} {values : List (String × Socket Block)} {name : String} {d : Block}
    (h : (values.lookup name).bind Socket.effective = some d) :
    (operands ident values).lookup name = some (d.expr ident) := by
  induction values with
  | nil => cases h
  | cons e rest ih =>
    obtain ⟨key, block, shadow⟩ := e
    rw [List.lookup_cons] at h
    cases hkey : name == key with
    | true =>
      rw [hkey] at h
      cases block with
      | some c =>
        obtain rfl : c = d := Option.some.inj h
        rw [operands, List.lookup_cons, hkey]
      | none =>
        cases shadow with
        | some c =>
          obtain rfl : c = d := Option.some.inj h
          rw [operands, List.lookup_cons, hkey]
        | none => cases h
    | false =>
      rw [hkey] at h
      cases block <;> cases shadow <;> rw [operands] <;> first | exact ih h | (rw [List.lookup_cons, hkey]; exact ih h)

section

variable {v : Block → String} {n : Names} {b : Block} {ops : Names → Operands} {inn : Inner}

theorem branchesTree_conditions (hops : ∀ names, n.Adds names → ops names = ops n)
    (hinner : ∀ name, Adding n (fun _ => True) (inn.get name)) (indices : List Nat) :
    Adding n (fun bs => bs.map Prod.fst = indices.map fun i => (ops n).get s!"IF{i}" (truthTree false))
      (branchesTree ops inn indices) := by
  unfold branchesTree
  induction indices with
  | nil => exact .pure rfl
  | cons i indices ih =>
    rw [List.mapM_cons]
    simp only [bind_assoc, pure_bind]
    refine .bind .get fun names hn => .bind (hinner _) fun body _ => .bind ih fun bs hbs => .pure ?_
    rw [List.map_cons, List.map_cons, hbs, hops names hn]

theorem chooseTree_conditions (hops : ∀ names, n.Adds names → ops names = ops n)
    (hinner : ∀ name, Adding n (fun _ => True) (inn.get name)) :
    Adding n (fun ss => ∃ branches otherwise, ss = [.branch branches otherwise] ∧
      branches.map Prod.fst = (List.range b.branchCount).map fun i => (ops n).get s!"IF{i}" (truthTree false))
      (b.chooseTree ops inn) := by
  unfold chooseTree
  refine .bind (branchesTree_conditions hops hinner _) fun branches hbranches => ?_
  split
  · exact .bind (hinner _) fun body _ => .pure ⟨branches, some body, rfl, hbranches⟩
  · exact .pure ⟨branches, none, rfl, hbranches⟩

theorem own_conditions (hserved : b.Served v n) (hkind : b.kind = "controls_if") :
    Adding n (fun ss => ∃ branches otherwise, ss = [.branch branches otherwise] ∧
      branches.map Prod.fst = (List.range b.branchCount).map fun i =>
        (operands (fun d => n.identOf (v d)) b.values.entries).get s!"IF{i}" (truthTree false)) (b.own v) := by
  have hown : b.own v = b.chooseTree (fun names => operands (fun d => names.identOf (v d)) b.values.entries)
      (inner v b.statements.entries) := by
    rw [own_eq, ownOf]
    simp only [hkind]
  rw [hown]
  refine chooseTree_conditions (fun names hn => operands_adds hserved hn) fun name names hn => ⟨trivial, ?_⟩
  exact (inner_marked b.statements.entries name names hn).2

end

end Block

namespace Workspace

variable {w : Workspace}

theorem generates_of_mem {b : Block} (h : b ∈ w.sequence Block.chainNames) : w.Generates b := by
  obtain ⟨stack, hstack, hitems⟩ := List.mem_flatMap.1 h
  obtain ⟨c, hc, hb⟩ := List.mem_flatMap.1 hitems
  obtain ⟨hc, hon⟩ := List.mem_filter.1 hc
  have hmem : stack ∈ w.stackList := (List.mem_filter.1 ((List.mergeSort_perm _ _).mem_iff.1 hstack)).1
  unfold Block.itemSequence at hb
  split at hb
  · cases hb
  · exact ⟨stack, hmem, c, hc, by simpa using hon, Block.inside_of_mem c hb⟩

end Workspace

/-! Choices that have a plan. -/

namespace Block

variable {v : Block → String} {b : Block} {a : Action}

theorem action_eq (b : Block) : b.action v =
    actionOf v b (inputs v b.values.entries) (bodies v b.statements.entries) := by
  obtain ⟨id, kind, position, disabled, fields, values, ⟨statements⟩, mutation⟩ := b
  rw [action]

theorem ofKind?_of_action (h : b.action v = .ok a) : Shape.ofKind? b.kind = some .statement := by
  rw [action_eq] at h
  unfold actionOf at h
  split at h
  case h_15 => split at h <;> cases h
  all_goals
    rename_i hkind
    rw [hkind]
    decide

theorem socketCount_of_action (h : b.action v = .ok a) (hkind : b.kind = "controls_if") :
    b.socketCount (min (b.mutationCount "elseif" + 1) (Word.limit - 1)) ["IF", "DO"] = .ok b.branchCount := by
  rw [action_eq, actionOf] at h
  simp only [hkind] at h
  obtain ⟨count, hcount, -⟩ := bind_eq_ok h
  rwa [← show count = b.branchCount from socketCount_eq_ok hcount]

theorem lt_branchCount (h : b.action v = .ok a) (hkind : b.kind = "controls_if") {i : Nat} (hi : i < Word.limit)
    (hpresent : s!"DO{i}" ∈ b.statements.keys ∨ s!"IF{i}" ∈ b.values.keys) : i < b.branchCount := by
  have hcount := socketCount_of_action h hkind
  obtain hchain | hcondition := hpresent
  · exact lt_of_socketCount hcount (List.mem_append_right _ hchain) (socketIndex?_chain hi)
  · exact lt_of_socketCount hcount (List.mem_append_left _ hcondition) (socketIndex?_condition hi)

theorem sameChains_of_action (h : b.action v = .ok a) : SameChains chainNames (orderedChains Word.limit) b := by
  refine sameChains_ordered (fun hkind => ?_) fun hkind i hi hlt => ?_
  · have hcount := socketCount_of_action h hkind
    unfold socketCount at hcount
    dsimp only at hcount
    split at hcount
    · cases hcount
    next hfits =>
      have hlimit : maxSockets < Word.limit := by decide
      rw [Except.ok.injEq] at hcount
      omega
  · exact lt_branchCount h hkind hlt (.inl (mem_chainNumbers.1 hi))

end Block

namespace Workspace

variable {w : Workspace} {c : Compiled} {program : Script.Program}

/-- Whether code begins with the mark of a block and the code of the block. That of a choice has a branch for each of
its chains and conditions with a number below a limit, and in it the condition that is plugged in. -/
structure Codes (w : Workspace) (limit : Nat) (b : Block) (code : List Script.Statement) : Prop where
  begins : b.CodedBy w.variableOf w.names code
  branches : b.kind = "controls_if" → ∃ branches otherwise rest,
    code = markTree b.id :: .branch branches otherwise :: rest ∧ ∀ i < limit,
      (s!"DO{i}" ∈ b.statements.keys ∨ s!"IF{i}" ∈ b.values.keys → i < branches.length) ∧
        ∀ cond, b.input? s!"IF{i}" = some cond →
          branches[i]?.map Prod.fst = some (cond.expr fun d => w.names.identOf (w.variableOf d))

theorem planned_of_mem (h : w.compile = .ok c) {b : Block} (hb : b ∈ w.sequence Block.chainNames) :
    ∃ a, b.action w.variableOf = .ok a := by
  have hplans : List.Forall₂ (fun b id => (∃ a, b.action w.variableOf = .ok a) ∧ id = b.id)
      (w.sequence Block.chainNames) c.ids := (compile_ids h).flip.imp fun _ _ hplan => hplan.symm
  exact ((List.forall₂_and_left _ _).1 hplans).1 b hb

/-- Where a workspace compiles, the chains that its code contains are those that there are. -/
theorem sequence_ordered (h : w.compile = .ok c) :
    w.sequence (Block.orderedChains Word.limit) = w.sequence Block.chainNames := by
  unfold sequence
  refine List.flatMap_congr fun stack hstack => List.flatMap_congr fun b hb => ?_
  have hsame (d : Block) (hd : d ∈ b.itemSequence Block.chainNames) :
      Block.SameChains Block.chainNames (Block.orderedChains Word.limit) d := by
    obtain ⟨a, ha⟩ := planned_of_mem h
      (List.mem_flatMap.2 ⟨stack, hstack, List.mem_flatMap.2 ⟨b, hb, hd⟩⟩)
    exact Block.sameChains_of_action ha
  unfold Block.itemSequence at hsame ⊢
  split
  next => rfl
  next hvalue =>
    rw [if_neg hvalue] at hsame
    exact Block.sequence_congr b hsame

theorem codes_of_mem (h : w.compile = .ok c) {b : Block} (hb : b ∈ w.sequence Block.chainNames)
    {code : List Script.Statement} (hcode : b.CodedBy w.variableOf w.names code) : w.Codes Word.limit b code := by
  refine ⟨hcode, fun hkind => ?_⟩
  obtain ⟨names, hadds, rest, hrest⟩ := hcode
  obtain ⟨a, ha⟩ := planned_of_mem h hb
  have hserved := w.served (generates_of_mem hb) .refl
  obtain ⟨⟨branches, otherwise, hown, hconditions⟩, -⟩ := Block.own_conditions hserved hkind names hadds
  refine ⟨branches, otherwise, rest, by rw [← hrest, hown]; rfl, fun i hi => ⟨fun hpresent => ?_, fun cond hcond => ?_⟩⟩
  · rw [← List.length_map, hconditions, List.length_map, List.length_range]
    exact Block.lt_branchCount ha hkind hi hpresent
  have hkey : s!"IF{i}" ∈ b.values.keys := by
    unfold Block.input? at hcond
    refine Dict.contains_iff.1 (Option.isSome_iff_exists.2 ?_)
    obtain ⟨socket, hsocket, -⟩ := Option.bind_eq_some_iff.1 hcond
    exact ⟨socket, hsocket⟩
  have hlt := Block.lt_branchCount ha hkind hi (.inr hkey)
  rw [← List.getElem?_map, hconditions, List.getElem?_map, List.getElem?_range hlt]
  simp only [Option.map_some, Option.some.injEq]
  unfold Block.Operands.get
  rw [Block.lookup_operands hcond]
  rfl

/-- A script marks the enabled statement blocks in running order, each mark directly before the code of its block, and
the ids of these blocks are listed in the same order. Below the end of the words no chain and no condition of a choice
is left out, whatever its mutation declares. -/
theorem marks_enabled (h : w.compile = .ok c) (hp : Script.parse c.code = .ok program) :
    let blocks := w.sequence (Block.orderedChains Word.limit)
    w.RunningOrder w.orderedStacks ∧ (∀ b ∈ blocks, Shape.ofKind? b.kind = some .statement) ∧
      c.ids = blocks.map Block.id ∧
      Script.callsAll .mark program = c.ids.map (fun id => [textTree id]) ∧
      List.Forall₂ (w.Codes Word.limit) blocks (markedAll program) := by
  intro blocks
  have hblocks : blocks = w.sequence Block.chainNames := sequence_ordered h
  have hmarked : List.Forall₂ (Block.CodedBy w.variableOf w.names) blocks (markedAll program) := by
    rw [hblocks, ← script_of_parse h hp]
    exact w.script_marked
  have hids : c.ids = blocks.map Block.id := by
    rw [hblocks, ← List.forall₂_eq_eq_eq, List.forall₂_map_right_iff]
    exact (compile_ids h).imp fun _ _ hplan => hplan.1
  have hargs : blocks.map (fun b => [textTree b.id]) = (markedAll program).map Script.argsOf := by
    rw [← List.forall₂_eq_eq_eq, List.forall₂_map_left_iff, List.forall₂_map_right_iff]
    refine hmarked.imp fun b code hcode => ?_
    obtain ⟨names, -, rest, rfl⟩ := hcode
    rfl
  refine ⟨w.orderedStacks_runningOrder, fun b hb => ?_, hids, ?_, ?_⟩
  · rw [hblocks] at hb
    obtain ⟨a, ha⟩ := planned_of_mem h hb
    exact Block.ofKind?_of_action ha
  · rw [Script.callsAll_of_tidy program (tidy_of_compile h hp), ← hargs, hids, List.map_map]
    rfl
  -- the code of a block is that of its plan, which only the blocks of the workspace have
  · have hmem : List.Forall₂ (fun b code => b ∈ blocks ∧ b.CodedBy w.variableOf w.names code) blocks
        (markedAll program) := (List.forall₂_and_left _ _).2 ⟨fun _ hb => hb, hmarked⟩
    exact hmem.imp fun b code hb => codes_of_mem h (hblocks ▸ hb.1) hb.2

theorem jumpsInLoops_of_none (h : ∀ stack ∈ w.stackList, ∀ b ∈ Block.chainActive stack,
    b.kind ≠ "controls_flow_statements") : w.JumpsInLoops := by
  intro stack hs b hb _ l d hd hkind
  exact absurd hkind (h stack hs d (Block.mem_chainActive hb (Block.mem_active_of_inside hd)))

/-- A choice whose mutation declares nothing, with a condition, a chain and a last chain, below a loop with a disabled
block in its chain. -/
def choiceBelow : Workspace :=
  let yes := { Block.ofKind "yes" "logic_boolean" with fields := .singleton "BOOL" ⟨"TRUE", none⟩ }
  let choice := { Block.ofKind "choice" "controls_if" with
    position := some (0, 10), values := .singleton "IF1" ⟨some yes, none⟩
    statements := ⟨[("DO10", [Block.ofKind "later" "capture"]), ("DO2", [Block.ofKind "sooner" "capture"]),
      ("ELSE", [Block.ofKind "last" "capture"])]⟩ }
  let loop := { Block.ofKind "loop" "controls_repeat" with
    position := some (5, 0)
    statements := .singleton "DO" [{ Block.ofKind "off" "capture" with disabled := true }, Block.ofKind "on" "capture"] }
  ⟨[], [[choice], [loop]]⟩

theorem choiceBelow_orderedStacks : choiceBelow.orderedStacks = choiceBelow.stackList.reverse := by
  simp [orderedStacks, choiceBelow, List.mergeSort, keyLE, stackKey]

theorem choiceBelow_marks : ∃ c program, choiceBelow.compile = .ok c ∧ Script.parse c.code = .ok program ∧
    c.ids = ["loop", "on", "choice", "sooner", "later", "last"] ∧
      Script.callsAll .mark program = c.ids.map fun id => [textTree id] := by
  have hcompiles : choiceBelow.compile.toOption.isSome = true := by
    rw [compile, plan, names, variableNames, choiceBelow_orderedStacks]
    decide +kernel
  obtain ⟨c, hc, hparse⟩ := exists_compiled hcompiles (jumpsInLoops_of_none (by decide +kernel))
  obtain ⟨-, -, hids, hmarks, -⟩ := marks_enabled hc hparse
  refine ⟨c, _, hc, hparse, hids.trans ?_, hmarks⟩
  rw [sequence, choiceBelow_orderedStacks]
  decide +kernel

/-- A choice of which no count is declared, with a chain whose number is no word. -/
def overlong : Workspace :=
  ⟨[], [[{ Block.ofKind "a" "controls_if" with
    statements := .singleton "DO18446744073709551616" [Block.ofKind "b" "capture"] }]]⟩

/-- The chain is left out all the same. -/
theorem overlong_unmarked : ∃ c program, overlong.compile = .ok c ∧ Script.parse c.code = .ok program ∧
    c.ids ≠ (overlong.sequence (Block.orderedChains (Word.limit + 1))).map Block.id := by
  have hstacks : overlong.orderedStacks = overlong.stackList := by simp [orderedStacks, overlong]
  have hc : overlong.compile = .ok ⟨"mark(\"a\");\nif (false) \x7b\n\x7d\n", ["a"]⟩ := by
    rw [compile, plan, names, variableNames, hstacks]
    decide +kernel
  refine ⟨_, _, hc, parse_of_jumps hc (jumpsInLoops_of_none (by decide +kernel)), ?_⟩
  rw [sequence, hstacks]
  decide +kernel

end Workspace

end ScopeBlocks
