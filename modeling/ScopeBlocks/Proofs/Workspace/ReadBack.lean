import ScopeBlocks.Proofs.Workspace.PlanAgrees
import ScopeBlocks.Script.Eval

/-! Where the jumps of a script stand, and what the code of a workspace is read back as. -/
namespace ScopeBlocks

open Script (placedAll placedBranches placedOtherwise placedBranches_of_forall)

/-- Whether a coding gives results of one kind, whatever names are taken. -/
def Returns {α : Type} (P : α → Prop) (m : Coding α) : Prop := ∀ names, P (m names).1

namespace Returns

variable {α β : Type} {P : α → Prop} {Q : β → Prop}

theorem pure {a : α} (h : P a) : Returns P (Pure.pure a) := fun _ => h

theorem bind {m : Coding α} {f : α → Coding β} (h : Returns P m)
    (hf : ∀ a, P a → Returns Q (f a)) : Returns Q (m >>= f) := fun names => hf _ (h names) _

theorem any (m : Coding α) : Returns (fun _ => True) m := fun _ => trivial

theorem mapM {γ : Type} {f : γ → Coding α} {l : List γ} (h : ∀ c ∈ l, Returns P (f c)) :
    Returns (fun as => ∀ a ∈ as, P a) (l.mapM f) := by
  induction l with
  | nil => exact .pure (by simp)
  | cons c l ih =>
    rw [List.mapM_cons]
    refine .bind (h c List.mem_cons_self) fun a ha => ?_
    refine .bind (ih fun d hd => h d (List.mem_cons_of_mem _ hd)) fun as has => .pure ?_
    exact fun x hx => (List.mem_cons.1 hx).elim (· ▸ ha) (has x)

end Returns

section

variable {inLoop : Bool}

theorem placedAll_append (ss ts : List Script.Statement) :
    placedAll inLoop (ss ++ ts) = (placedAll inLoop ss && placedAll inLoop ts) := by
  induction ss with
  | nil => rfl
  | cons s ss ih =>
    simp only [List.cons_append, placedAll, ih, Bool.and_assoc]

theorem placedAll_single {s : Script.Statement} (h : s.placed inLoop = true) :
    placedAll inLoop [s] = true := by
  unfold placedAll placedAll
  rw [h]
  rfl

theorem placedAll_flatten {sss : List (List Script.Statement)}
    (h : ∀ ss ∈ sss, placedAll inLoop ss = true) : placedAll inLoop sss.flatten = true := by
  induction sss with
  | nil => rfl
  | cons ss sss ih =>
    rw [List.flatten_cons, placedAll_append, h ss List.mem_cons_self,
      ih fun t ht => h t (List.mem_cons_of_mem _ ht)]
    rfl

end

namespace Block

def isLoop (b : Block) : Bool :=
  ["controls_repeat", "controls_repeat_ext", "controls_whileUntil", "controls_for"].contains b.kind

def chainNames (b : Block) : List String :=
  if b.isLoop then ["DO"]
  else if b.kind = "controls_if" then
    (List.range b.branchCount).map (s!"DO{·}") ++ if b.hasElse then ["ELSE"] else []
  else []

section

variable {b : Block}

theorem chainNames_loop (h : b.isLoop = true) : b.chainNames = ["DO"] := by rw [chainNames, if_pos h]

theorem isLoop_choice (h : b.kind = "controls_if") : b.isLoop = false := by simp [isLoop, h]

theorem chainNames_choice (h : b.kind = "controls_if") : b.chainNames =
    (List.range b.branchCount).map (s!"DO{·}") ++ if b.hasElse then ["ELSE"] else [] := by
  simp [chainNames, isLoop_choice h, h]

theorem branch_mem_chainNames (h : b.kind = "controls_if") {i : Nat} (hi : i < b.branchCount) :
    s!"DO{i}" ∈ b.chainNames := by
  rw [chainNames_choice h]
  exact List.mem_append_left _ (List.mem_map.2 ⟨i, List.mem_range.2 hi, rfl⟩)

theorem else_mem_chainNames (h : b.kind = "controls_if") (helse : b.hasElse = true) :
    "ELSE" ∈ b.chainNames := by
  simp [chainNames_choice h, helse]

end

/-- A block and the enabled blocks in its chains, with whether a chain of a loop lies between. -/
inductive Inside : Bool → Block → Block → Prop
  | here {b : Block} : Inside false b b
  | inChain {b c d : Block} {name : String} {chain : List Block} {l : Bool}
      (hname : name ∈ b.chainNames) (hchain : b.statements.get? name = some chain) (hc : c ∈ chain)
      (hon : c.disabled = false) (h : Inside l c d) : Inside (l || b.isLoop) b d

/-- Every jump that a block generates lies in a chain of a loop, perhaps of one around the block. -/
def JumpsIn (inLoop : Bool) (b : Block) : Prop :=
  ∀ l d, Inside l b d → d.kind = "controls_flow_statements" → (l || inLoop) = true

theorem JumpsIn.inChain {inLoop : Bool} {b c : Block} (h : b.JumpsIn inLoop) {name : String}
    {chain : List Block} (hname : name ∈ b.chainNames) (hchain : b.statements.get? name = some chain)
    (hc : c ∈ chain) (hon : c.disabled = false) : c.JumpsIn (b.isLoop || inLoop) := by
  intro l d hd hkind
  rw [← Bool.or_assoc]
  exact h _ d (.inChain hname hchain hc hon hd) hkind

section

variable {variableOf : Block → String} {b : Block} {ops : Names → Operands} {inn : Inner}
  {inLoop : Bool}

/-- Whether a loop accepts every body whose jumps are meant for it. -/
def Encloses (inLoop : Bool) (loop : LoopTree) : Prop :=
  ∀ ss, placedAll true ss = true → placedAll inLoop (loop ss) = true

variable (inLoop) in
theorem repeatTree_encloses : Returns (Encloses inLoop) (b.repeatTree ops) := by
  unfold repeatTree
  split
  · exact .bind (.any _) fun _ _ => .pure fun ss h => placedAll_single h
  · split
    · exact .bind (.any _) fun _ _ => .pure fun ss h => placedAll_single h
    · refine .bind (.any _) fun _ _ => .bind (.any _) fun _ _ => .bind (.any _) fun _ _ => ?_
      exact .pure fun ss h => placedAll_single h

variable (inLoop) in
theorem forTree_encloses {ident : String} : Returns (Encloses inLoop) (b.forTree ident ops) := by
  unfold forTree
  split
  · exact .pure fun ss h => placedAll_single h
  · refine .bind (.any _) fun names _ => .bind (.any _) fun _ _ => .bind (.any _) fun _ _ => ?_
    refine .bind (.any _) fun _ _ => .pure fun ss h => ?_
    rw [placedAll_append]
    exact placedAll_single h

theorem chooseTree_placed (helse : b.hasElse = true →
      Returns (placedAll inLoop · = true) (inn.get "ELSE"))
    (hdo : ∀ i < b.branchCount, Returns (placedAll inLoop · = true) (inn.get s!"DO{i}")) :
    Returns (placedAll inLoop · = true) (b.chooseTree ops inn) := by
  have hbranches : Returns (placedBranches inLoop · = true)
      (branchesTree ops inn (List.range b.branchCount)) := by
    have hall := Returns.mapM (P := fun p : Script.Expr × List Script.Statement =>
        placedAll inLoop p.2 = true) (l := List.range b.branchCount) (f := fun i => do
      let cond := (ops (← get)).get s!"IF{i}" (truthTree false)
      return (cond, ← inn.get s!"DO{i}")) fun i hi =>
        .bind (.any _) fun _ _ => .bind (hdo i (List.mem_range.1 hi)) fun _ h => .pure h
    exact fun names => placedBranches_of_forall (hall names)
  unfold chooseTree
  refine .bind hbranches fun branches hb => ?_
  split
  next h =>
    refine .bind (helse h) fun body hbody => .pure (placedAll_single ?_)
    unfold Script.Statement.placed placedOtherwise
    rw [hb, hbody]
    rfl
  next =>
    refine .pure (placedAll_single ?_)
    unfold Script.Statement.placed placedOtherwise
    rw [hb]
    rfl

theorem ownOf_placed (hself : b.kind = "controls_flow_statements" → inLoop = true)
    (hinner : ∀ name ∈ b.chainNames,
      Returns (placedAll (b.isLoop || inLoop) · = true) (inn.get name)) :
    Returns (placedAll inLoop · = true) (ownOf variableOf b ops inn) := by
  have hbody : b.isLoop = true → Returns (placedAll true · = true) (inn.get "DO") := by
    intro hloop
    have hdo := hinner "DO" (by simp [chainNames_loop hloop])
    rwa [hloop] at hdo
  unfold ownOf
  split <;> rename_i hkind
  case h_1 | h_2 | h_3 | h_15 => exact .pure rfl
  case h_4 | h_5 | h_6 | h_7 | h_8 => exact .bind (.any _) fun _ _ => .pure rfl
  case h_9 =>
    rw [isLoop_choice hkind] at hinner
    exact chooseTree_placed (fun h => hinner _ (else_mem_chainNames hkind h)) fun i hi =>
      hinner _ (branch_mem_chainNames hkind hi)
  case h_10 =>
    refine .bind (.any _) fun _ _ => .bind (hbody (by simp [isLoop, hkind])) fun _ h => .pure ?_
    exact placedAll_single h
  case h_11 =>
    refine .bind (repeatTree_encloses inLoop) fun loop hl => ?_
    exact .bind (hbody (by simp [isLoop, hkind])) fun _ h => .pure (hl _ h)
  case h_12 =>
    refine .bind (.any _) fun _ _ => .bind (hbody (by simp [isLoop, hkind])) fun _ h => .pure ?_
    exact placedAll_single h
  case h_13 =>
    refine .bind (.any _) fun _ _ => .bind (forTree_encloses inLoop) fun loop hl => ?_
    exact .bind (hbody (by simp [isLoop, hkind])) fun _ h => .pure (hl _ h)
  case h_14 =>
    refine .pure (placedAll_single ?_)
    split <;> exact hself hkind

end

mutual

theorem own_placed (variableOf : Block → String) : (b : Block) → (inLoop : Bool) →
    b.JumpsIn inLoop → Returns (placedAll inLoop · = true) (b.own variableOf)
  | ⟨id, kind, position, disabled, fields, values, ⟨statements⟩, mutation⟩, inLoop, h => by
    unfold own
    refine ownOf_placed (fun hkind => ?_) fun name hname => ?_
    · simpa using h false _ .here hkind
    · exact inner_placed variableOf statements _ name fun chain hchain c hc hon => h.inChain hname hchain hc hon

theorem statementsOf_placed (variableOf : Block → String) : (chain : List Block) →
    (inLoop : Bool) → (∀ b ∈ chain, b.disabled = false → b.JumpsIn inLoop) →
    Returns (placedAll inLoop · = true) (statementsOf variableOf chain)
  | [], _, _ => by
    unfold statementsOf
    exact .pure rfl
  | b :: rest, inLoop, h => by
    have hrest := statementsOf_placed variableOf rest inLoop fun c hc =>
      h c (List.mem_cons_of_mem _ hc)
    unfold statementsOf
    split
    next => exact hrest
    next hon =>
      have hb := own_placed variableOf b inLoop
        (h b List.mem_cons_self (by simpa using hon))
      refine .bind hb fun ss hs => .bind hrest fun ts ht => .pure ?_
      rw [List.cons_append, ← List.singleton_append, placedAll_append, placedAll_append, hs, ht]
      rfl

theorem inner_placed (variableOf : Block → String) : (statements : List (String × List Block)) →
    (inLoop : Bool) → (name : String) →
    (∀ chain, statements.lookup name = some chain →
      ∀ b ∈ chain, b.disabled = false → b.JumpsIn inLoop) →
    Returns (placedAll inLoop · = true) ((inner variableOf statements).get name)
  | [], _, _, _ => by
    unfold inner
    exact .pure rfl
  | (key, chain) :: rest, inLoop, name, h => by
    have hchain := statementsOf_placed variableOf chain inLoop
    have hrest := inner_placed variableOf rest inLoop name
    unfold inner Inner.get
    rw [List.lookup_cons] at h ⊢
    cases hkey : name == key with
    | true =>
      simp only [hkey] at h
      exact hchain (h chain rfl)
    | false =>
      simp only [hkey] at h
      exact hrest h

end

theorem itemTree_placed {variableOf : Block → String} {b : Block} (h : b.JumpsIn false) :
    Returns (placedAll false · = true) (b.itemTree variableOf) := by
  unfold itemTree
  split
  · exact .bind (.any _) fun _ _ => .pure rfl
  · exact .bind (own_placed _ b false h) fun ss hs => .pure hs

end Block

/-- A number without the sign of a zero. -/
def Number.plain : Number → Number
  | .finite _ 0 exact => .finite false 0 exact
  | x => x

theorem Number.eval_tree {σ : Type} {x : Number} (h : x.isFinite = true) (host : Script.Host σ)
    (store : Script.Store) (tape : Script.Tape σ) :
    x.tree.eval host store tape = (.ok (.number x.plain), tape) := by
  cases x with
  | nan => cases h
  | infinite => cases h
  | finite negative k hk =>
    unfold Number.tree
    dsimp only
    cases k with
    | zero =>
      rw [if_neg (by simp)]
      rfl
    | succ k =>
      cases negative <;> rfl

/-- The value of a number field: a finite number without the sign of a zero, anything else zero. -/
def Block.fieldValue (text : String) : Number :=
  match Number.readChars? (Text.trimChars text.toList) with
  | some x => if x.isFinite then x.plain else 0
  | none => 0

theorem Block.eval_field (text : String) {σ : Type} (host : Script.Host σ) (store : Script.Store)
    (tape : Script.Tape σ) :
    (finiteOf text).tree.eval host store tape = (.ok (.number (fieldValue text)), tape) := by
  have hzero : Number.zero.plain = 0 := Number.ofNat_zero.symm
  unfold fieldValue finiteOf
  cases Number.readChars? (Text.trimChars text.toList) with
  | none => exact hzero ▸ Number.eval_tree rfl host store tape
  | some x =>
    cases hx : x.isFinite with
    | true => simpa [hx] using Number.eval_tree hx host store tape
    | false => simpa [hx, hzero] using Number.eval_tree (x := .zero) rfl host store tape

namespace Workspace

/-- Every jump that is generated lies in a chain of an enabled loop. -/
def JumpsInLoops (w : Workspace) : Prop :=
  ∀ stack ∈ w.stackList, ∀ b ∈ stack, b.disabled = false → b.JumpsIn false

theorem script_placed {w : Workspace} (h : w.JumpsInLoops) : placedAll false w.script = true := by
  have hstack : ∀ stack ∈ w.orderedStacks, Returns (placedAll false · = true) (w.stackScript stack) := by
    intro stack hs
    have hmem : stack ∈ w.stackList := by
      have hs' := (List.mergeSort_perm _ _).mem_iff.1 hs
      exact (List.mem_filter.1 hs').1
    unfold stackScript
    refine .bind (.mapM (P := (placedAll false · = true)) fun b hb => ?_) fun parts hp =>
      .pure (placedAll_flatten hp)
    obtain ⟨hb, hon⟩ := List.mem_filter.1 hb
    exact Block.itemTree_placed (h stack hmem b hb (by simpa using hon))
  have hheader : placedAll false (headerTree w.names) = true := by
    unfold headerTree
    generalize w.names.declared = idents
    induction idents with
    | nil => rfl
    | cons ident idents ih => exact ih
  unfold script
  rw [placedAll_append, hheader]
  exact placedAll_flatten (Returns.mapM hstack w.names)

/-- The code of a workspace is read back as the script that its blocks stand for, or refused if a jump of
that script lies in no loop. -/
theorem parse_eq_ok_iff {w : Workspace} {c : Compiled} (h : w.compile = .ok c)
    {program : Script.Program} : Script.parse c.code = .ok program ↔
      placedAll false w.script = true ∧ w.script = program := by
  obtain ⟨plans, hplan, hcode, -⟩ := compile_eq_ok h
  obtain ⟨hscript, hproper⟩ := plan_script hplan
  have hparse := parse_plan hcode hproper
  rw [hscript] at hparse
  cases hread : Script.parse c.code with
  | error e =>
    rw [hread] at hparse
    cases hplaced : placedAll false w.script with
    | false => simp
    | true => simp [hplaced, Except.toOption] at hparse
  | ok q =>
    rw [hread] at hparse
    cases hplaced : placedAll false w.script with
    | false => simp [hplaced, Except.toOption] at hparse
    | true =>
      simp only [hplaced, Except.toOption, if_pos, Option.some.injEq] at hparse
      simp [hparse]

theorem script_of_parse {w : Workspace} {c : Compiled} (h : w.compile = .ok c)
    {program : Script.Program} (hp : Script.parse c.code = .ok program) : w.script = program :=
  ((parse_eq_ok_iff h).1 hp).2

theorem parse_of_jumps {w : Workspace} {c : Compiled} (h : w.compile = .ok c)
    (hjumps : w.JumpsInLoops) : Script.parse c.code = .ok w.script :=
  (parse_eq_ok_iff h).2 ⟨script_placed hjumps, rfl⟩

/-- The code of a workspace is read back as the script that its blocks stand for, in which a finite
number has the number as its value, and a number field the value of its text. -/
theorem parse_compile {w : Workspace} {c : Compiled} (h : w.compile = .ok c)
    (hjumps : w.JumpsInLoops) :
    Script.parse c.code = .ok w.script ∧
      ∀ (σ : Type) (host : Script.Host σ) (store : Script.Store) (tape : Script.Tape σ),
        (∀ x : Number, x.isFinite = true →
          x.tree.eval host store tape = (.ok (.number x.plain), tape)) ∧
        ∀ text, (Block.finiteOf text).tree.eval host store tape =
          (.ok (.number (Block.fieldValue text)), tape) := by
  refine ⟨parse_of_jumps h hjumps, fun _ host store tape => ⟨fun x hx => ?_, fun text => ?_⟩⟩
  · exact Number.eval_tree hx host store tape
  · exact Block.eval_field text host store tape

/-- A loop of two rounds that is left in the first one. -/
def leftLoop : Workspace :=
  let leave := { Block.ofKind "leave" "controls_flow_statements" with
    fields := .singleton "FLOW" ⟨"BREAK", none⟩ }
  let loop := { Block.ofKind "loop" "controls_repeat" with
    fields := .singleton "TIMES" ⟨"2", none⟩, statements := .singleton "DO" [leave] }
  ⟨[], [[loop]]⟩

theorem leftLoop_jumps : leftLoop.JumpsInLoops := by
  intro stack hs b hb _ l d hd hkind
  obtain rfl : stack = [_] := List.mem_singleton.1 hs
  obtain rfl := List.mem_singleton.1 hb
  cases hd with
  | here => exact absurd hkind (by decide)
  | inChain _ _ _ _ h => simp [Block.isLoop, Block.ofKind]

theorem leftLoop_reads : ∃ c, leftLoop.compile = .ok c ∧ Script.parse c.code = .ok leftLoop.script := by
  have hstacks : leftLoop.orderedStacks = leftLoop.stackList := by
    simp [orderedStacks, leftLoop]
  have hplan : leftLoop.plan = leftLoop.stackList.mapM leftLoop.planStack := by
    unfold plan
    rw [hstacks]
  have hcompile : leftLoop.compile.toOption.isSome = true := by
    unfold compile
    rw [hplan]
    rfl
  cases hc : leftLoop.compile with
  | error e =>
    rw [hc] at hcompile
    cases hcompile
  | ok c => exact ⟨c, rfl, (parse_compile hc leftLoop_jumps).1⟩

end Workspace

end ScopeBlocks
