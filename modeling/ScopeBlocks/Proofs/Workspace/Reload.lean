import ScopeBlocks.Proofs.Workspace.Saving
import ScopeBlocks.Proofs.Workspace.Stacks
import ScopeBlocks.Workspace.Code

/-! What a saved workspace compiles to once it is loaded again. Empty chains are not saved, and the script of
a workspace shows them in two ways only: the name of one may give a choice its last branch, and its number
may ask for further sockets. -/
namespace ScopeBlocks

namespace Block

section Pruned

variable (b : Block)

@[simp] theorem pruned_id : b.pruned.id = b.id := by cases b; rfl

@[simp] theorem pruned_kind : b.pruned.kind = b.kind := by cases b; rfl

@[simp] theorem pruned_position : b.pruned.position = b.position := by cases b; rfl

@[simp] theorem pruned_disabled : b.pruned.disabled = b.disabled := by cases b; rfl

@[simp] theorem pruned_fields : b.pruned.fields = b.fields := by cases b; rfl

@[simp] theorem pruned_mutation : b.pruned.mutation = b.mutation := by cases b; rfl

theorem pruned_values : b.pruned.values = ⟨prunedSockets b.values.entries⟩ := by cases b; rfl

theorem pruned_statements : b.pruned.statements = ⟨prunedChains b.statements.entries⟩ := by cases b; rfl

@[simp] theorem keys_pruned_values : b.pruned.values.keys = b.values.keys := by
  rw [pruned_values, Dict.keys, prunedSockets_eq_map, List.map_map]
  rfl

theorem keys_pruned_statements :
    b.pruned.statements.keys = (b.statements.entries.filter (!·.2.isEmpty)).map Prod.fst := by
  rw [pruned_statements, Dict.keys, prunedChains_eq_map, List.map_map]
  rfl

theorem input?_pruned (name : String) : b.pruned.input? name = (b.input? name).map pruned := by
  rw [input?, input?, pruned_values, Dict.get?, Dict.get?, prunedSockets_eq_map]
  induction b.values.entries with
  | nil => rfl
  | cons e rest ih =>
    obtain ⟨key, block, shadow⟩ := e
    rw [List.map_cons, List.lookup_cons, List.lookup_cons]
    cases name == key with
    | true => cases block <;> cases shadow <;> rfl
    | false => exact ih

end Pruned

/-- How many numbered sockets a block declares, and the words before their numbers. -/
def numbering (b : Block) : Option (Nat × List String) :=
  match b.kind with
  | "controls_if" => some (min (b.mutationCount "elseif" + 1) (Word.limit - 1), ["IF", "DO"])
  | "text_join" => some (b.mutationCount "items", ["ADD"])
  | _ => none

/-- No empty chain of a block is what gives it a last branch or one of its numbered sockets. -/
structure EmptyChainsIdle (b : Block) : Prop where
  otherwise : b.kind = "controls_if" → ("ELSE", []) ∈ b.statements.entries → 0 < b.mutationCount "else"
  numbered : ∀ declared words, b.numbering = some (declared, words) → ∀ key i,
    (key, []) ∈ b.statements.entries → socketIndex? words key = some i →
      i < declared ∨ ∃ k ∈ b.values.keys ++ b.pruned.statements.keys, ∃ j, socketIndex? words k = some j ∧ i ≤ j

/-- The fold that counts sockets gives the least count that none of them is beyond. -/
theorem foldl_count_le {n m : Nat} {is : List Nat} :
    is.foldl (fun n i => max n (min (i + 1) (Word.limit - 1))) n ≤ m ↔
      n ≤ m ∧ ∀ i ∈ is, min (i + 1) (Word.limit - 1) ≤ m := by
  induction is generalizing n with
  | nil => simp
  | cons i is ih => simp [ih, and_assoc]

theorem mem_keys_pruned {b : Block} {key : String} (h : key ∈ b.statements.keys) :
    key ∈ b.pruned.statements.keys ∨ (key, []) ∈ b.statements.entries := by
  obtain ⟨⟨k, chain⟩, he, rfl⟩ := List.mem_map.1 h
  cases chain with
  | nil => exact .inr he
  | cons c chain =>
    rw [keys_pruned_statements]
    exact .inl (List.mem_map.2 ⟨_, List.mem_filter.2 ⟨he, rfl⟩, rfl⟩)

theorem keys_pruned_subset {b : Block} {key : String} (h : key ∈ b.pruned.statements.keys) :
    key ∈ b.statements.keys := by
  rw [keys_pruned_statements] at h
  obtain ⟨e, he, rfl⟩ := List.mem_map.1 h
  exact List.mem_map.2 ⟨e, (List.mem_filter.1 he).1, rfl⟩

theorem socketCount_pruned {b : Block} (h : b.EmptyChainsIdle) {declared : Nat} {words : List String}
    (hb : b.numbering = some (declared, words)) :
    b.pruned.socketCount declared words = b.socketCount declared words := by
  have hcount : ∀ m,
      ((b.values.keys ++ b.pruned.statements.keys).filterMap (socketIndex? words)).foldl
        (fun n i => max n (min (i + 1) (Word.limit - 1))) declared ≤ m ↔
      ((b.values.keys ++ b.statements.keys).filterMap (socketIndex? words)).foldl
        (fun n i => max n (min (i + 1) (Word.limit - 1))) declared ≤ m := by
    intro m
    rw [foldl_count_le, foldl_count_le]
    refine and_congr_right fun hdeclared => ⟨fun hkeys i hi => ?_, fun hkeys i hi => ?_⟩
    · have hkept : ∀ {k j}, k ∈ b.values.keys ++ b.pruned.statements.keys →
          socketIndex? words k = some j → min (j + 1) (Word.limit - 1) ≤ m := fun hk hj =>
        hkeys _ (List.mem_filterMap.2 ⟨_, hk, hj⟩)
      obtain ⟨key, hkey, hi⟩ := List.mem_filterMap.1 hi
      rcases List.mem_append.1 hkey with hkey | hkey
      · exact hkept (List.mem_append_left _ hkey) hi
      · rcases mem_keys_pruned hkey with hkey | hempty
        · exact hkept (List.mem_append_right _ hkey) hi
        · rcases h.numbered declared words hb key i hempty hi with hlt | ⟨k, hk, j, hj, hij⟩
          · omega
          · have := hkept hk hj
            omega
    · obtain ⟨key, hkey, hi⟩ := List.mem_filterMap.1 hi
      refine hkeys i (List.mem_filterMap.2 ⟨key, ?_, hi⟩)
      rcases List.mem_append.1 hkey with hkey | hkey
      · exact List.mem_append_left _ hkey
      · exact List.mem_append_right _ (keys_pruned_subset hkey)
  have hsame := Nat.le_antisymm ((hcount _).2 (Nat.le_refl _)) ((hcount _).1 (Nat.le_refl _))
  simp only [socketCount, keys_pruned_values, hsame, pruned_id]

section Fields

variable (b : Block)

@[simp] theorem field?_pruned (name : String) : b.pruned.field? name = b.field? name := by
  simp only [field?, pruned_fields]

@[simp] theorem mutationCount_pruned (name : String) :
    b.pruned.mutationCount name = b.mutationCount name := by
  simp only [mutationCount, pruned_mutation]

@[simp] theorem numberField_pruned (name : String) : b.pruned.numberField name = b.numberField name := by
  simp only [numberField, field?_pruned]

@[simp] theorem unknown_pruned : b.pruned.unknown = b.unknown := by
  simp only [unknown, pruned_id, pruned_kind]

theorem countOf_pruned (ins : Inputs) : b.pruned.countOf ins = b.countOf ins := by
  rw [countOf, countOf, input?_pruned]
  cases b.input? "TIMES" <;> simp

theorem knownBound?_pruned (name : String) (default : Number) :
    b.pruned.knownBound? name default = b.knownBound? name default := by
  rw [knownBound?, knownBound?, input?_pruned]
  cases b.input? name <;> simp

end Fields

section Plans

variable {v : Block → String}

theorem termOf_pruned (hv : ∀ b, v b.pruned = v b) {b : Block} (h : b.EmptyChainsIdle) (ins : Inputs) :
    termOf v b.pruned ins = termOf v b ins := by
  rw [termOf, termOf, pruned_kind]
  split
  all_goals
    simp only [hv, numberField_pruned, field?_pruned, mutationCount_pruned, unknown_pruned, pruned_id,
      arithmeticOp, compareOp, logicOp, isNumericPrompt]
  next hkind =>
    rw [socketCount_pruned h (by simp only [numbering, hkind])]

theorem chooseOf_pruned {b : Block} (h : b.EmptyChainsIdle) (hkind : b.kind = "controls_if")
    (ins : Inputs) {inner outer : Bodies} (hbodies : ∀ name, inner.get name = outer.get name) :
    b.pruned.chooseOf ins inner = b.chooseOf ins outer := by
  have hnumbering : b.numbering =
      some (min (b.mutationCount "elseif" + 1) (Word.limit - 1), ["IF", "DO"]) := by
    simp only [numbering, hkind]
  have hcount := socketCount_pruned h hnumbering
  have hbranches : ∀ n, branchesOf ins inner n = branchesOf ins outer n := fun n => by
    simp only [branchesOf, hbodies]
  have hotherwise : (0 < b.mutationCount "else" ∨ b.pruned.statements.contains "ELSE" = true) ↔
      (0 < b.mutationCount "else" ∨ b.statements.contains "ELSE" = true) := by
    rw [Dict.contains_iff, Dict.contains_iff]
    refine ⟨Or.imp_right keys_pruned_subset, ?_⟩
    rintro (hcount | hkey)
    · exact .inl hcount
    · exact (mem_keys_pruned hkey).symm.imp_left (h.otherwise hkind)
  simp only [chooseOf, mutationCount_pruned, hcount, hbranches, hotherwise, hbodies]

theorem actionOf_pruned (hv : ∀ b, v b.pruned = v b) {b : Block} (h : b.EmptyChainsIdle) (ins : Inputs) {inner outer : Bodies}
    (hbodies : ∀ name, inner.get name = outer.get name) :
    actionOf v b.pruned ins inner = actionOf v b ins outer := by
  rw [actionOf, actionOf, pruned_kind]
  split
  case h_9 hkind => exact chooseOf_pruned h hkind ins hbodies
  all_goals
    simp only [hv, hbodies, numberField_pruned, field?_pruned, unknown_pruned, pruned_id, focusOf, axisOf, modeOf,
      countOf_pruned, boundsOf, knownBound?_pruned]

end Plans

/-- A block whose statement chains stand under different names and of which no empty one shows. -/
def Reloadable (b : Block) : Prop := b.statements.Sorted ∧ b.EmptyChainsIdle

section Trees

variable {v : Block → String}

mutual

theorem term_pruned (hv : ∀ b, v b.pruned = v b) : (b : Block) → (∀ c ∈ b.subtree, c.Reloadable) → term v b.pruned = term v b
  | ⟨id, kind, position, disabled, fields, ⟨values⟩, ⟨statements⟩, mutation⟩, h => by
    rw [subtree] at h
    have hvalues := inputs_pruned hv values fun c hc => h c (List.mem_cons_of_mem _ (List.mem_append_left _ hc))
    have hterm := termOf_pruned hv (h _ List.mem_cons_self).2 (inputs v values)
    rw [pruned, term, term, hvalues]
    rwa [pruned] at hterm

theorem inputs_pruned (hv : ∀ b, v b.pruned = v b) : (values : List (String × Socket Block)) →
    (∀ c ∈ socketsSubtree values, c.Reloadable) → inputs v (prunedSockets values) = inputs v values
  | [], _ => rfl
  | (name, ⟨some b, shadow⟩) :: rest, h => by
    rw [socketsSubtree] at h
    have hb := term_pruned hv b fun c hc => h c (List.mem_append_left _ (List.mem_append_left _ hc))
    have hrest := inputs_pruned hv rest fun c hc => h c (List.mem_append_right _ hc)
    rw [prunedSockets, prunedOption, inputs, inputs, hb, hrest]
  | (name, ⟨none, some b⟩) :: rest, h => by
    rw [socketsSubtree] at h
    have hb := term_pruned hv b fun c hc => h c (List.mem_append_left _ (List.mem_append_right _ hc))
    have hrest := inputs_pruned hv rest fun c hc => h c (List.mem_append_right _ hc)
    rw [prunedSockets, prunedOption, prunedOption, inputs, inputs, hb, hrest]
  | (name, ⟨none, none⟩) :: rest, h => by
    rw [socketsSubtree] at h
    have hrest := inputs_pruned hv rest fun c hc => h c (List.mem_append_right _ hc)
    rw [prunedSockets, prunedOption, inputs, inputs, hrest]

end

theorem get_bodies_cons (key name : String) (c : List Block) (rest : List (String × List Block)) :
    (bodies v ((key, c) :: rest)).get name =
      if name = key then chain v c else (bodies v rest).get name := by
  rw [bodies, Bodies.get, Bodies.get, List.lookup_cons]
  by_cases h : name = key
  · rw [if_pos h, beq_iff_eq.2 h]
    rfl
  · rw [if_neg h, beq_eq_false_iff_ne.2 h]

theorem get_bodies_of_notMem {name : String} {statements : List (String × List Block)}
    (h : name ∉ statements.map Prod.fst) : (bodies v statements).get name = .ok [] := by
  induction statements with
  | nil => rfl
  | cons e rest ih =>
    rw [List.map_cons, List.mem_cons, not_or] at h
    rw [get_bodies_cons, if_neg h.1, ih h.2]

mutual

theorem action_pruned (hv : ∀ b, v b.pruned = v b) : (b : Block) → (∀ c ∈ b.subtree, c.Reloadable) → action v b.pruned = action v b
  | ⟨id, kind, position, disabled, fields, ⟨values⟩, ⟨statements⟩, mutation⟩, h => by
    rw [subtree] at h
    have hb := h _ List.mem_cons_self
    have hvalues := inputs_pruned hv values fun c hc =>
      h c (List.mem_cons_of_mem _ (List.mem_append_left _ hc))
    have hbodies := bodies_pruned hv statements
      (fun c hc => h c (List.mem_cons_of_mem _ (List.mem_append_right _ hc))) hb.1.nodup
    have haction := actionOf_pruned hv hb.2 (inputs v values) hbodies
    rw [pruned, action, action, hvalues]
    rwa [pruned] at haction

theorem chain_pruned (hv : ∀ b, v b.pruned = v b) : (bs : List Block) → (∀ c ∈ chainSubtree bs, c.Reloadable) →
    chain v (prunedChain bs) = chain v bs
  | [], _ => rfl
  | b :: rest, h => by
    rw [chainSubtree] at h
    have hb := action_pruned hv b fun c hc => h c (List.mem_append_left _ hc)
    have hrest := chain_pruned hv rest fun c hc => h c (List.mem_append_right _ hc)
    rw [prunedChain, chain, chain, pruned_disabled, pruned_id, hb, hrest]

theorem bodies_pruned (hv : ∀ b, v b.pruned = v b) : (statements : List (String × List Block)) →
    (∀ c ∈ chainsSubtree statements, c.Reloadable) → (statements.map Prod.fst).Nodup → ∀ name,
      (bodies v (prunedChains statements)).get name = (bodies v statements).get name
  | [], _, _, _ => rfl
  | (key, c) :: rest, h, hkeys, name => by
    rw [chainsSubtree] at h
    have hchain := chain_pruned hv c fun c hc => h c (List.mem_append_left _ hc)
    rw [List.map_cons, List.nodup_cons] at hkeys
    have hrest := bodies_pruned hv rest (fun c hc => h c (List.mem_append_right _ hc)) hkeys.2 name
    rw [prunedChains, get_bodies_cons]
    split
    next hempty =>
      rw [List.isEmpty_iff.1 hempty, hrest, chain]
      split
      next heq => exact get_bodies_of_notMem (heq ▸ hkeys.1)
      next => rfl
    next => rw [get_bodies_cons, hchain, hrest]

end

theorem item_pruned (hv : ∀ b, v b.pruned = v b) {b : Block} (h : ∀ c ∈ b.subtree, c.Reloadable) :
    item v b.pruned = item v b := by
  simp only [item, pruned_kind, pruned_id, term_pruned hv b h, action_pruned hv b h]

end Trees

mutual

theorem active_pruned : (b : Block) → b.pruned.active = b.active.map pruned
  | ⟨id, kind, position, disabled, fields, ⟨values⟩, ⟨statements⟩, mutation⟩ => by
    rw [pruned, active, active, socketsActive_pruned values, chainsActive_pruned statements, List.map_cons,
      List.map_append, pruned]

theorem socketsActive_pruned : (values : List (String × Socket Block)) →
    socketsActive (prunedSockets values) = (socketsActive values).map pruned
  | [] => rfl
  | (name, ⟨some b, shadow⟩) :: rest => by
    rw [prunedSockets, prunedOption, socketsActive, socketsActive, active_pruned b,
      socketsActive_pruned rest, List.map_append]
  | (name, ⟨none, some b⟩) :: rest => by
    rw [prunedSockets, prunedOption, prunedOption, socketsActive, socketsActive, active_pruned b,
      socketsActive_pruned rest, List.map_append]
  | (name, ⟨none, none⟩) :: rest => by
    rw [prunedSockets, prunedOption, socketsActive, socketsActive, socketsActive_pruned rest]

theorem chainsActive_pruned : (statements : List (String × List Block)) →
    chainsActive (prunedChains statements) = (chainsActive statements).map pruned
  | [] => rfl
  | (name, c) :: rest => by
    rw [prunedChains, chainsActive, List.map_append, ← chainActive_pruned c, ← chainsActive_pruned rest]
    split
    next hempty => rw [List.isEmpty_iff.1 hempty]; rfl
    next => rw [chainsActive]

theorem chainActive_pruned : (bs : List Block) → chainActive (prunedChain bs) = (chainActive bs).map pruned
  | [] => rfl
  | b :: rest => by
    rw [prunedChain, chainActive, chainActive, active_pruned b, chainActive_pruned rest, List.map_append]

end

theorem mapM_congr {α β : Type} {f g : α → Planned β} {l : List α} (h : ∀ a ∈ l, f a = g a) :
    l.mapM f = l.mapM g := by
  induction l with
  | nil => rfl
  | cons a l ih =>
    rw [List.mapM_cons, List.mapM_cons, h a List.mem_cons_self,
      ih fun x hx => h x (List.mem_cons_of_mem _ hx)]

end Block

namespace Workspace

variable (w : Workspace)

theorem variableOf_pruned (b : Block) : w.pruned.variableOf b.pruned = w.variableOf b := by
  rw [variableOf, variableOf, Block.pruned_fields]
  rfl

theorem stackKey_pruned (bs : List Block) : stackKey (bs.map Block.pruned) = stackKey bs := by
  cases bs with
  | nil => rfl
  | cons b rest => simp [stackKey]

theorem orderedStacks_pruned : w.pruned.orderedStacks = w.orderedStacks.map (·.map Block.pruned) := by
  have hfilter : w.pruned.stackList.filter (!·.isEmpty) = w.pruned.stackList := by
    rw [List.filter_eq_self]
    intro bs hbs
    obtain ⟨cs, hcs, rfl⟩ := List.mem_map.1 hbs
    simpa using (List.mem_filter.1 hcs).2
  rw [orderedStacks, orderedStacks, hfilter, pruned, List.map_mergeSort]
  intro bs _ cs _
  rw [stackKey_pruned, stackKey_pruned]

theorem variableNames_pruned : w.pruned.variableNames = w.variableNames := by
  have hactive : w.pruned.orderedStacks.flatMap Block.chainActive =
      (w.orderedStacks.flatMap Block.chainActive).map Block.pruned := by
    rw [orderedStacks_pruned, List.flatMap_map, List.map_flatMap]
    congr 1
    funext bs
    rw [← Block.prunedChain_eq_map, Block.chainActive_pruned]
  have hnames : namesVariable ∘ Block.pruned = namesVariable := by
    funext b
    simp only [Function.comp, namesVariable, Block.pruned_kind]
  have hvariable : w.pruned.variableOf ∘ Block.pruned = w.variableOf := funext w.variableOf_pruned
  rw [variableNames, variableNames, hactive, List.filter_map, hnames, List.map_map, hvariable]
  rfl

theorem plan_pruned (h : ∀ b ∈ w.blocks, b.Reloadable) : w.pruned.plan = w.plan := by
  have hv : ∀ b, w.variableOf b.pruned = w.variableOf b := w.variableOf_pruned
  have hstack : ∀ bs ∈ w.orderedStacks, w.pruned.planStack (bs.map Block.pruned) = w.planStack bs := by
    intro bs hbs
    have henabled : ((!·.disabled) ∘ Block.pruned : Block → Bool) = (!·.disabled) := by
      funext b
      simp only [Function.comp, Block.pruned_disabled]
    rw [planStack, planStack, List.filter_map, henabled, List.mapM_map]
    apply Block.mapM_congr
    intro b hb
    exact Block.item_pruned hv fun c hc => h c (mem_blocks hbs (List.mem_filter.1 hb).1 hc)
  rw [plan, plan, orderedStacks_pruned, List.mapM_map]
  exact Block.mapM_congr hstack

/-- A workspace compiles as the one that its document holds. -/
theorem compile_pruned (h : ∀ b ∈ w.blocks, b.Reloadable) : w.pruned.compile = w.compile := by
  rw [compile, compile, plan_pruned w h, names, names, variableNames_pruned]

/-- A workspace whose document keeps the places of its stacks compiles after loading as it did before it was
saved, unless an empty chain shows in its script. -/
theorem compile_reloaded {w : Workspace} (hkept : ∀ b ∈ w.blocks, Import.Kept b)
    (hidle : ∀ b ∈ w.blocks, b.EmptyChainsIdle) :
    ∃ q, ofXml w.toXml = .ok q ∧ q.compile = w.compile :=
  ⟨w.pruned, ofXml_of_kept hkept, w.compile_pruned fun b hb => ⟨(hkept b hb).statements, hidle b hb⟩⟩

/-- A choice between two chains without statements, of which its mutation declares the last one. -/
def declaredOtherwise : Workspace :=
  ⟨[], [[{ Block.ofKind "a" "controls_if" with
    statements := ⟨[("DO0", []), ("ELSE", [])]⟩, mutation := .singleton "else" "1" }]]⟩

theorem declaredOtherwise_reloaded : (∀ b ∈ declaredOtherwise.blocks, Import.Kept b) ∧
    (∀ b ∈ declaredOtherwise.blocks, b.EmptyChainsIdle) ∧
      ∃ q, ofXml declaredOtherwise.toXml = .ok q ∧ q.compile = declaredOtherwise.compile := by
  have hstorable : ∀ b ∈ declaredOtherwise.blocks, b.Storable := by decide +kernel
  have hkept := fun b hb => (hstorable b hb).kept
  have hidle : ∀ b ∈ declaredOtherwise.blocks, b.EmptyChainsIdle := by
    intro b hb
    obtain rfl := List.mem_singleton.1 hb
    refine ⟨fun _ _ => by decide +kernel, ?_⟩
    intro declared words hnumbering key i hkey hi
    obtain ⟨rfl, rfl⟩ : 1 = declared ∧ ["IF", "DO"] = words := by
      simpa using (show some (1, ["IF", "DO"]) = some (declared, words) from hnumbering)
    have hkeys : key = "DO0" ∨ key = "ELSE" := by simpa using hkey
    rcases hkeys with rfl | rfl
    · have hzero : Block.socketIndex? ["IF", "DO"] "DO0" = some 0 := by decide +kernel
      rw [hzero] at hi
      cases hi
      exact .inl Nat.one_pos
    · have hnone : Block.socketIndex? ["IF", "DO"] "ELSE" = none := by decide +kernel
      rw [hnone] at hi
      cases hi
  exact ⟨hkept, hidle, compile_reloaded hkept hidle⟩

/-- A choice whose last branch has no statements. -/
def emptyOtherwise : Workspace :=
  ⟨[], [[{ Block.ofKind "a" "controls_if" with statements := .singleton "ELSE" [] }]]⟩

/-- The branch is gone once such a choice has been saved and loaded. -/
theorem emptyOtherwise_reloaded : (∀ b ∈ emptyOtherwise.blocks, b.Storable) ∧
    ∃ q, ofXml emptyOtherwise.toXml = .ok q ∧ q.compile ≠ emptyOtherwise.compile := by
  have h : ∀ b ∈ emptyOtherwise.blocks, b.Storable := by decide +kernel
  refine ⟨h, _, ofXml_of_kept fun b hb => (h b hb).kept, ?_⟩
  have hstacks : emptyOtherwise.orderedStacks = emptyOtherwise.stackList := by
    simp [orderedStacks, emptyOtherwise]
  have hpruned : emptyOtherwise.pruned.orderedStacks = emptyOtherwise.pruned.stackList := by
    simp [orderedStacks, emptyOtherwise, pruned]
  rw [compile, compile, plan, plan, names, names, variableNames, variableNames, hstacks, hpruned]
  decide +kernel

end Workspace

end ScopeBlocks
