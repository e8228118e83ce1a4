import Mathlib.Data.List.Basic
import Mathlib.Logic.Relation
import ScopeBlocks.Proofs.Dict
import ScopeBlocks.Proofs.Workspace.PlanAgrees

/-! Workspaces without their disabled blocks. A disabled block in a stack or in a chain is passed over, whatever
it is. In a socket nobody looks whether a block is disabled: there it supplies its value all the same. -/
namespace ScopeBlocks

namespace Block

mutual

/-- A block as planning sees it: the statements in it that are disabled are gone, the blocks in its sockets are
enabled, no shadow stands under another block, and none has a position. -/
def enabled : Block → Block
  | ⟨id, kind, _, _, fields, ⟨values⟩, ⟨statements⟩, mutation⟩ =>
    ⟨id, kind, none, false, fields, ⟨enabledSockets values⟩, ⟨enabledChains statements⟩, mutation⟩

def enabledSockets : List (String × Socket Block) → List (String × Socket Block)
  | [] => []
  | (name, ⟨some b, _⟩) :: rest => (name, ⟨some b.enabled, none⟩) :: enabledSockets rest
  | (name, ⟨none, some b⟩) :: rest => (name, ⟨some b.enabled, none⟩) :: enabledSockets rest
  | (name, ⟨none, none⟩) :: rest => (name, ⟨none, none⟩) :: enabledSockets rest

def enabledChains : List (String × List Block) → List (String × List Block)
  | [] => []
  | (name, chain) :: rest => (name, enabledChain chain) :: enabledChains rest

def enabledChain : List Block → List Block
  | [] => []
  | b :: rest => if b.disabled then enabledChain rest else b.enabled :: enabledChain rest

end

section Fields

variable (b : Block)

@[simp] theorem enabled_id : b.enabled.id = b.id := by cases b; rfl

@[simp] theorem enabled_kind : b.enabled.kind = b.kind := by cases b; rfl

@[simp] theorem enabled_disabled : b.enabled.disabled = false := by cases b; rfl

@[simp] theorem enabled_fields : b.enabled.fields = b.fields := by cases b; rfl

@[simp] theorem enabled_mutation : b.enabled.mutation = b.mutation := by cases b; rfl

theorem enabled_values : b.enabled.values = ⟨enabledSockets b.values.entries⟩ := by cases b; rfl

theorem enabled_statements : b.enabled.statements = ⟨enabledChains b.statements.entries⟩ := by cases b; rfl

@[simp] theorem keys_enabled_values : b.enabled.values.keys = b.values.keys := by
  rw [enabled_values]
  obtain ⟨id, kind, position, disabled, fields, ⟨values⟩, statements, mutation⟩ := b
  change (enabledSockets values).map Prod.fst = values.map Prod.fst
  induction values with
  | nil => rfl
  | cons e rest ih =>
    obtain ⟨name, block, shadow⟩ := e
    cases block <;> cases shadow <;> exact congrArg (name :: ·) ih

@[simp] theorem keys_enabled_statements : b.enabled.statements.keys = b.statements.keys := by
  rw [enabled_statements]
  obtain ⟨id, kind, position, disabled, fields, values, ⟨statements⟩, mutation⟩ := b
  change (enabledChains statements).map Prod.fst = statements.map Prod.fst
  induction statements with
  | nil => rfl
  | cons e rest ih => exact congrArg (e.1 :: ·) ih

theorem input?_enabled (name : String) : b.enabled.input? name = (b.input? name).map enabled := by
  rw [input?, input?, enabled_values, Dict.get?, Dict.get?]
  induction b.values.entries with
  | nil => rfl
  | cons e rest ih =>
    obtain ⟨key, block, shadow⟩ := e
    cases block <;> cases shadow <;> rw [enabledSockets, List.lookup_cons, List.lookup_cons] <;>
      cases name == key <;> first | rfl | exact ih

@[simp] theorem field?_enabled (name : String) : b.enabled.field? name = b.field? name := by
  simp only [field?, enabled_fields]

@[simp] theorem mutationCount_enabled (name : String) :
    b.enabled.mutationCount name = b.mutationCount name := by
  simp only [mutationCount, enabled_mutation]

@[simp] theorem numberField_enabled (name : String) : b.enabled.numberField name = b.numberField name := by
  simp only [numberField, field?_enabled]

@[simp] theorem unknown_enabled : b.enabled.unknown = b.unknown := by
  simp only [unknown, enabled_id, enabled_kind]

theorem socketCount_enabled (declared : Nat) (words : List String) :
    b.enabled.socketCount declared words = b.socketCount declared words := by
  simp only [socketCount, keys_enabled_values, keys_enabled_statements, enabled_id]

theorem countOf_enabled (ins : Inputs) : b.enabled.countOf ins = b.countOf ins := by
  rw [countOf, countOf, input?_enabled]
  cases b.input? "TIMES" <;> simp

theorem knownBound?_enabled (name : String) (default : Number) :
    b.enabled.knownBound? name default = b.knownBound? name default := by
  rw [knownBound?, knownBound?, input?_enabled]
  cases b.input? name <;> simp

theorem chooseOf_enabled (ins : Inputs) (bodies : Bodies) :
    b.enabled.chooseOf ins bodies = b.chooseOf ins bodies := by
  have hotherwise : b.enabled.statements.contains "ELSE" = b.statements.contains "ELSE" := by
    rw [Bool.eq_iff_iff, Dict.contains_iff, Dict.contains_iff, keys_enabled_statements]
  simp only [chooseOf, mutationCount_enabled, socketCount_enabled, hotherwise]

end Fields

section Plans

variable {v : Block → String}

theorem termOf_enabled (hv : ∀ b, v b.enabled = v b) (b : Block) (ins : Inputs) : termOf v b.enabled ins = termOf v b ins := by
  rw [termOf, termOf, enabled_kind]
  split
  all_goals
    simp only [hv, numberField_enabled, field?_enabled, mutationCount_enabled, unknown_enabled, enabled_id,
      arithmeticOp, compareOp, logicOp, isNumericPrompt, socketCount_enabled]

theorem actionOf_enabled (hv : ∀ b, v b.enabled = v b) (b : Block) (ins : Inputs) (bodies : Bodies) :
    actionOf v b.enabled ins bodies = actionOf v b ins bodies := by
  rw [actionOf, actionOf, enabled_kind]
  split
  all_goals
    simp only [hv, numberField_enabled, field?_enabled, unknown_enabled, enabled_id, focusOf, axisOf, modeOf,
      countOf_enabled, boundsOf, knownBound?_enabled, chooseOf_enabled]

mutual

theorem term_enabled (hv : ∀ b, v b.enabled = v b) : (b : Block) → term v b.enabled = term v b
  | ⟨id, kind, position, disabled, fields, ⟨values⟩, statements, mutation⟩ => by
    have hterm := termOf_enabled hv ⟨id, kind, position, disabled, fields, ⟨values⟩, statements, mutation⟩
      (inputs v values)
    rw [enabled, term, term, inputs_enabled hv values]
    rwa [enabled] at hterm

theorem inputs_enabled (hv : ∀ b, v b.enabled = v b) : (values : List (String × Socket Block)) →
    inputs v (enabledSockets values) = inputs v values
  | [] => rfl
  | (name, ⟨some b, _⟩) :: rest => by
    rw [enabledSockets, inputs, inputs, term_enabled hv b, inputs_enabled hv rest]
  | (name, ⟨none, some b⟩) :: rest => by
    rw [enabledSockets, inputs, inputs, term_enabled hv b, inputs_enabled hv rest]
  | (name, ⟨none, none⟩) :: rest => by
    rw [enabledSockets, inputs, inputs, inputs_enabled hv rest]

end

mutual

theorem action_enabled (hv : ∀ b, v b.enabled = v b) : (b : Block) → action v b.enabled = action v b
  | ⟨id, kind, position, disabled, fields, ⟨values⟩, ⟨statements⟩, mutation⟩ => by
    have haction := actionOf_enabled hv
      ⟨id, kind, position, disabled, fields, ⟨values⟩, ⟨statements⟩, mutation⟩ (inputs v values)
      (bodies v statements)
    rw [enabled, action, action, inputs_enabled hv values, bodies_enabled hv statements]
    rwa [enabled] at haction

theorem chain_enabled (hv : ∀ b, v b.enabled = v b) : (bs : List Block) → chain v (enabledChain bs) = chain v bs
  | [] => rfl
  | b :: rest => by
    rw [enabledChain, chain]
    split
    · exact chain_enabled hv rest
    · rw [chain, enabled_disabled, enabled_id, action_enabled hv b, chain_enabled hv rest]
      rfl

theorem bodies_enabled (hv : ∀ b, v b.enabled = v b) : (statements : List (String × List Block)) →
    bodies v (enabledChains statements) = bodies v statements
  | [] => rfl
  | (name, c) :: rest => by
    rw [enabledChains, bodies, bodies, chain_enabled hv c, bodies_enabled hv rest]

end

theorem item_enabled (hv : ∀ b, v b.enabled = v b) (b : Block) : item v b.enabled = item v b := by
  simp only [item, enabled_kind, enabled_id, term_enabled hv, action_enabled hv]

end Plans

theorem enabledChain_eq_map (bs : List Block) :
    enabledChain bs = (bs.filter (!·.disabled)).map enabled := by
  induction bs with
  | nil => rfl
  | cons b rest ih =>
    rw [enabledChain]
    cases hb : b.disabled <;> simp [hb, ih]

theorem enabledChain_append (bs cs : List Block) :
    enabledChain (bs ++ cs) = enabledChain bs ++ enabledChain cs := by
  simp only [enabledChain_eq_map, List.filter_append, List.map_append]

theorem append_subset_append {α : Type} {l₁ l₂ m₁ m₂ : List α} (h₁ : l₁ ⊆ m₁) (h₂ : l₂ ⊆ m₂) :
    l₁ ++ l₂ ⊆ m₁ ++ m₂ :=
  List.append_subset.2 ⟨List.subset_append_of_subset_left _ h₁, List.subset_append_of_subset_right _ h₂⟩

mutual

theorem active_enabled : (b : Block) → b.enabled.active ⊆ b.active.map enabled
  | ⟨id, kind, position, disabled, fields, ⟨values⟩, ⟨statements⟩, mutation⟩ => by
    have hvalues := socketsActive_enabled values
    have hstatements := chainsActive_enabled statements
    rw [enabled, active, active, List.map_cons, List.map_append]
    exact List.cons_subset_cons _ (append_subset_append hvalues hstatements)

theorem socketsActive_enabled : (values : List (String × Socket Block)) →
    socketsActive (enabledSockets values) ⊆ (socketsActive values).map enabled
  | [] => List.nil_subset _
  | (name, ⟨some b, _⟩) :: rest | (name, ⟨none, some b⟩) :: rest => by
    rw [enabledSockets, socketsActive, socketsActive, List.map_append]
    exact append_subset_append (active_enabled b) (socketsActive_enabled rest)
  | (name, ⟨none, none⟩) :: rest => by
    rw [enabledSockets, socketsActive, socketsActive]
    exact socketsActive_enabled rest

theorem chainsActive_enabled : (statements : List (String × List Block)) →
    chainsActive (enabledChains statements) ⊆ (chainsActive statements).map enabled
  | [] => List.nil_subset _
  | (name, c) :: rest => by
    rw [enabledChains, chainsActive, chainsActive, List.map_append]
    exact append_subset_append (chainActive_enabled c) (chainsActive_enabled rest)

theorem chainActive_enabled : (bs : List Block) →
    chainActive (enabledChain bs) ⊆ (chainActive bs).map enabled
  | [] => List.nil_subset _
  | b :: rest => by
    rw [enabledChain, chainActive, List.map_append]
    split
    · exact List.subset_append_of_subset_right _ (chainActive_enabled rest)
    · rw [chainActive]
      exact append_subset_append (active_enabled b) (chainActive_enabled rest)

end

end Block

/-! Stacks in running order. -/

theorem filter_cut {α : Type} {p : α → Bool} {l₁ l₂ : List α} (h₁ : ∀ b ∈ l₁, p b = true)
    (h₂ : ∀ b ∈ l₂, p b = false) : (l₁ ++ l₂).filter p = l₁ := by
  rw [List.filter_append, List.filter_eq_self.2 h₁, List.filter_eq_nil_iff.2 (by simpa using h₂),
    List.append_nil]

/-- A sort that keeps the order of what stands at one place sorts a part of a list as it sorts the list. -/
theorem filter_mergeSort {α : Type} {le : α → α → Bool} (htrans : ∀ a b c, le a b → le b c → le a c)
    (htotal : ∀ a b, le a b || le b a) (p : α → Bool) (l : List α) :
    (l.filter p).mergeSort le = (l.mergeSort le).filter p := by
  induction l with
  | nil => simp
  | cons a l ih =>
    obtain ⟨l₁, l₂, h, hl, hlt⟩ := List.mergeSort_cons htrans htotal a l
    rw [h, List.filter_append]
    cases ha : p a with
    | false =>
      rw [List.filter_cons_of_neg (by simp [ha]), List.filter_cons_of_neg (by simp [ha]), ih, hl,
        List.filter_append]
    | true =>
      rw [List.filter_cons_of_pos ha, List.filter_cons_of_pos ha]
      obtain ⟨m₁, m₂, hm, hml, hmlt⟩ := List.mergeSort_cons htrans htotal a (l.filter p)
      have hsame : m₁ ++ m₂ = l₁.filter p ++ l₂.filter p := by
        rw [← hml, ih, hl, List.filter_append]
      have hafter {t s₁ s₂ : List α} (hs : t.mergeSort le = s₁ ++ a :: s₂) : ∀ b ∈ s₂, le a b = true :=
        (List.pairwise_cons.1 (List.pairwise_append.1 (hs ▸ List.pairwise_mergeSort htrans htotal t)).2.1).1
      have hm₁ : m₁ = l₁.filter p := by
        rw [← filter_cut hmlt fun b hb => by simp [hafter hm b hb], hsame]
        refine filter_cut (fun b hb => hlt b (List.mem_of_mem_filter hb)) fun b hb => ?_
        simp [hafter h b (List.mem_of_mem_filter hb)]
      rw [hm₁] at hsame
      rw [hm, hm₁, List.append_cancel_left hsame]

namespace Workspace

variable {w : Workspace}

theorem keyLE_iff {a b : Nat × Int × Int} : keyLE a b = true ↔
    a.1 < b.1 ∨ (a.1 = b.1 ∧ (a.2.1 < b.2.1 ∨ (a.2.1 = b.2.1 ∧ a.2.2 ≤ b.2.2))) := by
  simp [keyLE]

theorem keyLE_trans (a b c : Nat × Int × Int) (hab : keyLE a b = true) (hbc : keyLE b c = true) :
    keyLE a c = true := by
  rw [keyLE_iff] at hab hbc ⊢
  omega

theorem keyLE_total (a b : Nat × Int × Int) : (keyLE a b || keyLE b a) = true := by
  rw [Bool.or_eq_true, keyLE_iff, keyLE_iff]
  omega

def running (w : Workspace) : List Block := w.orderedStacks.flatMap Block.enabledChain

/-- What of each stack takes effect, with the place where the stack stands. -/
def places (stackList : List (List Block)) : List ((Nat × Int × Int) × List Block) :=
  (stackList.map fun stack => (stackKey stack, Block.enabledChain stack)).filter (!·.2.isEmpty)

theorem places_append (l m : List (List Block)) : places (l ++ m) = places l ++ places m := by
  simp only [places, List.map_append, List.filter_append]

theorem running_eq : w.running =
    ((places w.stackList).mergeSort fun p q => keyLE p.1 q.1).flatMap Prod.snd := by
  have hplaced : places w.stackList = places (w.stackList.filter (!·.isEmpty)) := by
    unfold places
    rw [List.filter_map, List.filter_map, List.filter_filter]
    congr 1
    refine List.filter_congr fun stack _ => ?_
    cases stack with
    | nil => rfl
    | cons b rest => simp
  have hsort := List.map_mergeSort (r := fun a b => keyLE (stackKey a) (stackKey b))
    (s := fun p q => keyLE p.1 q.1) (f := fun stack => (stackKey stack, Block.enabledChain stack))
    (l := w.stackList.filter (!·.isEmpty)) fun _ _ _ _ => rfl
  have htrans (p q r : (Nat × Int × Int) × List Block) := keyLE_trans p.1 q.1 r.1
  have htotal (p q : (Nat × Int × Int) × List Block) := keyLE_total p.1 q.1
  rw [hplaced, places, filter_mergeSort htrans htotal, ← hsort, running, orderedStacks]
  generalize (w.stackList.filter (!·.isEmpty)).mergeSort _ = sorted
  induction sorted with
  | nil => rfl
  | cons stack sorted ih =>
    rw [List.flatMap_cons, List.map_cons, ih]
    cases hstack : Block.enabledChain stack <;> simp

theorem flatten_mapM {ι α β : Type} (f : ι → List α) (g : α → Block.Planned β) (l : List ι) :
    List.flatten <$> l.mapM (fun i => (f i).mapM g) = (l.flatMap f).mapM g := by
  induction l with
  | nil => rfl
  | cons i l ih =>
    rw [List.flatMap_cons, List.mapM_append, ← ih, List.mapM_cons]
    simp only [map_eq_pure_bind, bind_assoc, pure_bind, List.flatten_cons]

theorem variableOf_enabled (b : Block) : w.variableOf b.enabled = w.variableOf b := by
  rw [variableOf, variableOf, Block.enabled_fields]

/-- The plan of a workspace is that of its enabled blocks. -/
theorem plan_running : List.flatten <$> w.plan = w.running.mapM (Block.item w.variableOf) := by
  have hstack (stack : List Block) :
      w.planStack stack = (Block.enabledChain stack).mapM (Block.item w.variableOf) := by
    rw [planStack, Block.enabledChain_eq_map, List.mapM_map]
    congr 1
    funext b
    exact (Block.item_enabled variableOf_enabled b).symm
  rw [running, ← flatten_mapM, plan]
  simp only [← hstack]

/-! The script. -/

theorem stackTrees_eq (plans : List (List Item)) : stackTrees plans = stackTree plans.flatten := by
  have happend (items more : List Item) : stackTree (items ++ more) = (do
      let own ← stackTree items
      return own ++ (← stackTree more)) := by
    induction items with
    | nil => simp [stackTree]
    | cons i items ih =>
      rw [List.cons_append, stackTree, stackTree, ih]
      simp only [bind_assoc, pure_bind, List.append_assoc]
  induction plans with
  | nil => rfl
  | cons items plans ih => rw [stackTrees, List.flatten_cons, happend, ih]

/-- The script of a workspace that has a plan is that of its enabled blocks. -/
theorem script_running {plans : List (List Item)} (h : w.plan = .ok plans) : w.script =
    headerTree w.names ++ (w.running.mapM (Block.itemTree w.variableOf) w.names).1.flatten := by
  have hplan := plan_running (w := w)
  rw [h] at hplan
  rw [← (plan_script h).1, planScript, stackTrees_eq, (stackTree_eq hplan.symm).1]
  rfl

end Workspace

end ScopeBlocks
