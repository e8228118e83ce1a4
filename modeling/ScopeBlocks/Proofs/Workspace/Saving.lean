import ScopeBlocks.Proofs.Workspace.Coordinates
import ScopeBlocks.Proofs.Workspace.Reimport

/-! Saving and loading. The document of a workspace is read back as the workspace without its empty stacks
and chains, and these leave no trace in it. -/
namespace ScopeBlocks

open Xml (Event Node Named PlainName)

namespace Block

open Import (Kept Role)

theorem allProper_append {ms ns : List Node} (hm : Node.AllProper ms) (hn : Node.AllProper ns) :
    Node.AllProper (ms ++ ns) := by
  induction ms with
  | nil => exact hn
  | cons m ms ih =>
    rw [Node.AllProper] at hm
    rw [List.cons_append, Node.AllProper]
    exact ⟨hm.1, ih hm.2⟩

theorem allProper_singleton {n : Node} (h : n.Proper) : Node.AllProper [n] := by
  rw [Node.AllProper]
  exact ⟨h, trivial⟩

theorem proper_ofText {name : String} {as : List (String × String)} (h : Named name as)
    (content : String) : (Node.ofText name as content).Proper := by
  rw [Node.ofText]
  split
  next => exact h
  next hne => exact ⟨h, by simpa using hne⟩

theorem proper_element {name : String} {as : List (String × String)} {children : List Node}
    (h : Named name as) (hchildren : Node.AllProper children) : (Node.element name as children).Proper := by
  rw [Node.Proper]
  exact ⟨h, hchildren⟩

variable {B : Block}

/-- A mutation that can be written as the attributes of an element: names that attributes can have, each
once and in order, as dictionaries keep them. -/
structure Attributable (b : Block) : Prop where
  mutation : b.mutation.Sorted
  plain : ∀ e ∈ b.mutation.entries, PlainName e.1

theorem proper_mutation (h : Attributable B) : Node.AllProper B.mutationNodes := by
  rw [mutationNodes]
  split
  next => trivial
  next => exact allProper_singleton ⟨by decide, List.all_eq_true.1 rfl, h.plain, h.mutation.nodup⟩

theorem proper_fields (B : Block) : Node.AllProper B.fieldNodes := by
  rw [fieldNodes]
  induction B.fields.entries with
  | nil => trivial
  | cons e es ih =>
    rw [List.map_cons, Node.AllProper]
    exact ⟨proper_ofText (Import.named_of_attributes _ (by decide) (List.all_eq_true.1 rfl) e.1 e.2.id) _, ih⟩

theorem named_slot {tag : String} (hne : tag ≠ "") (halpha : ∀ c ∈ tag.toList, c.isAlpha = true)
    (name : String) : Named tag [("name", name)] := Import.named_of_attributes tag hne halpha name none

mutual

theorem proper_node (role : Role) (next : List Node) (hnext : Node.AllProper next) :
    (B : Block) → (∀ c ∈ B.subtree, Attributable c) → (B.node role.tag next).Proper
  | ⟨id, kind, position, disabled, fields, ⟨values⟩, ⟨statements⟩, mutation⟩, h => by
    rw [subtree] at h
    have hB := h _ List.mem_cons_self
    have hvalues := proper_values values fun c hc =>
      h c (List.mem_cons_of_mem _ (List.mem_append_left _ hc))
    have hstatements := proper_statements statements fun c hc =>
      h c (List.mem_cons_of_mem _ (List.mem_append_right _ hc))
    rw [node, nodeWith]
    split
    next => exact Kept.named role _
    next =>
      exact proper_element (Kept.named role _) (allProper_append (allProper_append (allProper_append
        (allProper_append (proper_mutation hB) (proper_fields _)) hvalues) hstatements) hnext)

theorem proper_option (role : Role) :
    (B : Option Block) → (∀ c ∈ optionSubtree B, Attributable c) → Node.AllProper (optionNodes role.tag B)
  | none, _ => trivial
  | some B, h => allProper_singleton (proper_node role [] trivial B h)

theorem proper_values : (values : List (String × Socket Block)) →
    (∀ c ∈ socketsSubtree values, Attributable c) → Node.AllProper (valueNodes values)
  | [], _ => trivial
  | (name, ⟨block, shadow⟩) :: rest, h => by
    rw [socketsSubtree] at h
    have hshadow := proper_option .shadow shadow fun c hc =>
      h c (List.mem_append_left _ (List.mem_append_right _ hc))
    have hblock := proper_option .plugged block fun c hc =>
      h c (List.mem_append_left _ (List.mem_append_left _ hc))
    have hrest := proper_values rest fun c hc => h c (List.mem_append_right _ hc)
    rw [valueNodes, Node.AllProper]
    exact ⟨proper_element (named_slot (by decide) (List.all_eq_true.1 rfl) name) (allProper_append hshadow hblock),
      hrest⟩

theorem proper_statements : (statements : List (String × List Block)) →
    (∀ c ∈ chainsSubtree statements, Attributable c) → Node.AllProper (statementNodes statements)
  | [], _ => trivial
  | (name, chain) :: rest, h => by
    rw [chainsSubtree] at h
    have hchain := proper_chain chain fun c hc => h c (List.mem_append_left _ hc)
    have hrest := proper_statements rest fun c hc => h c (List.mem_append_right _ hc)
    rw [statementNodes]
    split
    next => exact hrest
    next =>
      exact allProper_append
        (allProper_singleton (proper_element (named_slot (by decide) (List.all_eq_true.1 rfl) name) hchain)) hrest

theorem proper_chain : (chain : List Block) → (∀ c ∈ chainSubtree chain, Attributable c) →
    Node.AllProper (chainNodes chain)
  | [], _ => trivial
  | B :: rest, h => by
    rw [chainSubtree] at h
    have hrest := proper_chain rest fun c hc => h c (List.mem_append_right _ hc)
    have hnext : Node.AllProper
        (if rest.isEmpty then [] else [.element "next" [] (chainNodes rest)]) := by
      split
      next => trivial
      next =>
        exact allProper_singleton (proper_element ⟨by decide, List.all_eq_true.1 rfl, by simp, by simp⟩ hrest)
    exact allProper_singleton
      (proper_node .plugged _ hnext B fun c hc => h c (List.mem_append_left _ hc))

end

/-- What a document can hold of a block: entries in the order of their names, as dictionaries keep them, a
mutation whose names can be written as attributes, and a position of words that are binary64 numbers. -/
structure Storable (b : Block) : Prop where
  fields : b.fields.Sorted
  values : b.values.Sorted
  statements : b.statements.Sorted
  mutation : b.mutation.Sorted
  plain : ∀ e ∈ b.mutation.entries, PlainName e.1
  words : ∀ p ∈ b.position, Word.isSigned p.1 = true ∧ Word.isSigned p.2 = true
  numbers : ∀ p ∈ b.position, Number.Representable (p.1.natAbs * Number.unit) ∧
    Number.Representable (p.2.natAbs * Number.unit)

theorem Storable.kept (h : B.Storable) : Kept B where
  fields := h.fields
  values := h.values
  statements := h.statements
  mutation := h.mutation
  plain := h.plain
  position _ _ hp := ⟨Import.coordinate_toString (h.words _ hp).1 (h.numbers _ hp).1,
    Import.coordinate_toString (h.words _ hp).2 (h.numbers _ hp).2⟩

instance (b : Block) : Decidable b.Storable :=
  decidable_of_iff (b.fields.Sorted ∧ b.values.Sorted ∧ b.statements.Sorted ∧ b.mutation.Sorted ∧
    (∀ e ∈ b.mutation.entries, PlainName e.1) ∧
    (∀ p ∈ b.position, Word.isSigned p.1 = true ∧ Word.isSigned p.2 = true) ∧
    ∀ p ∈ b.position, Number.Representable (p.1.natAbs * Number.unit) ∧
      Number.Representable (p.2.natAbs * Number.unit))
    ⟨fun ⟨hf, hv, hs, hm, hp, hw, hn⟩ => ⟨hf, hv, hs, hm, hp, hw, hn⟩,
      fun ⟨hf, hv, hs, hm, hp, hw, hn⟩ => ⟨hf, hv, hs, hm, hp, hw, hn⟩⟩

end Block

namespace Import

theorem Kept.attributable {B : Block} (h : Kept B) : B.Attributable := ⟨h.mutation, h.plain⟩

variable {w : Workspace}

def variableAttributes (id : Option String) : List (String × String) := (id.map ("id", ·)).toList

theorem named_variable (id : Option String) : Named "variable" (variableAttributes id) := by
  refine ⟨by decide, List.all_eq_true.1 rfl, ?_, by cases id <;> simp [variableAttributes]⟩
  intro e he
  obtain ⟨value, -, rfl⟩ := Option.map_eq_some_iff.1 (Option.mem_toList.1 he)
  exact show PlainName "id" by decide

theorem get?_variableAttributes (id : Option String) :
    (Dict.ofList (variableAttributes id)).get? "id" = id := by
  cases id <;> simp [variableAttributes, Dict.ofList, Dict.get?_insert]

theorem variable_empty (found : List Variable) (id : Option String) :
    Leads (.reading w (.varList found)) [.emptyTag (tagOf "variable" (variableAttributes id))]
      (.reading w (.varList (found ++ [⟨id, ""⟩]))) := by
  apply leads_of_step
  simp only [State.step, Place.step, atVariables, attributes_tagOf (named_variable id),
    name_tagOf (named_variable id)]
  change Except.ok (State.reading w (.varList (found ++
    [⟨(Dict.ofList (variableAttributes id)).get? "id", ""⟩]))) = _
  rw [get?_variableAttributes]

theorem variable_start (found : List Variable) (id : Option String) :
    Leads (.reading w (.varList found)) [.startTag (tagOf "variable" (variableAttributes id))]
      (.reading w (.varText found id [])) := by
  apply leads_of_step
  simp only [State.step, Place.step, atVariables, attributes_tagOf (named_variable id),
    name_tagOf (named_variable id)]
  change Except.ok (State.reading w (.varText found ((Dict.ofList (variableAttributes id)).get? "id") [])) = _
  rw [get?_variableAttributes]

theorem leads_variable (found : List Variable) (v : Variable) (depth : Nat) :
    Leads (.reading w (.varList found)) (v.node.events depth) (.reading w (.varList (found ++ [v]))) := by
  obtain ⟨id, name⟩ := v
  rw [Variable.node, Node.ofText]
  split
  next hempty =>
    rw [show name = "" by simpa using hempty]
    exact variable_empty found id
  next =>
    have hcontent := leads_content (w := w) (.varText found id)
      (fun text => .varList (found ++ [⟨id, String.ofList text⟩])) name fun _ _ => rfl
    rw [String.ofList_toList] at hcontent
    exact .cons (variable_start found id) hcontent

theorem leads_variables (found vars : List Variable) (depth : Nat) :
    Leads (.reading w (.varList found)) (Node.eventsAll depth (vars.map Variable.node))
      (.reading w (.varList (found ++ vars))) := by
  induction vars generalizing found with
  | nil =>
    rw [List.append_nil]
    exact .refl _
  | cons v vars ih =>
    have hrest := ih (found ++ [v])
    rw [List.append_assoc, List.singleton_append] at hrest
    exact .cons (leads_of_step rfl) ((leads_variable found v depth).trans hrest)

theorem leads_variableList (vars : List Variable) (chains : List (List Block)) (depth : Nat) :
    Leads (.reading ⟨[], chains⟩ .top)
      (Node.eventsAll depth
        (if vars.isEmpty then [] else [.element "variables" [] (vars.map Variable.node)]))
      (.reading ⟨vars, chains⟩ .top) := by
  split
  next hempty =>
    rw [List.isEmpty_iff.1 hempty]
    exact .refl _
  next =>
    have hname : (tagOf "variables" []).name = "variables" :=
      name_tagOf ⟨by decide, List.all_eq_true.1 rfl, by simp, by simp⟩
    have hstart : Leads (.reading ⟨[], chains⟩ .top) [.startTag (tagOf "variables" [])]
        (.reading ⟨[], chains⟩ (.varList [])) := by
      apply leads_of_step
      simp only [State.step, Place.step, atTop, hname]
    have hend : Leads (.reading ⟨[], chains⟩ (.varList vars)) [.text (Node.gap depth), .endTag]
        (.reading ⟨vars, chains⟩ .top) := .cons (leads_of_step rfl) (leads_of_step rfl)
    rw [Node.eventsAll, Node.eventsAll, List.append_nil, Node.events]
    exact .cons (leads_of_step rfl) (.cons hstart ((leads_variables [] vars (depth + 1)).trans hend))

theorem leads_stacks (vars : List Variable) (found chains : List (List Block)) (depth : Nat)
    (h : ∀ c ∈ chains.flatMap Block.chainSubtree, Kept c) :
    Leads (.reading ⟨vars, found⟩ .top) (Node.eventsAll depth (chains.flatMap Block.chainNodes))
      (.reading ⟨vars, found ++ (chains.filter (!·.isEmpty)).map (·.map Block.pruned)⟩ .top) := by
  induction chains generalizing found with
  | nil =>
    rw [List.filter_nil, List.map_nil, List.append_nil]
    exact .refl _
  | cons stack chains ih =>
    rw [List.flatMap_cons] at h
    have hrest := fun found => ih found fun c hc => h c (List.mem_append_right _ hc)
    have hstack := leads_chain ⟨vars, found⟩ [] depth stack fun c hc => h c (List.mem_append_left _ hc)
    rw [List.flatMap_cons, eventsAll_append]
    cases stack with
    | nil => exact hstack.trans (hrest found)
    | cons b stack =>
      have htail := hrest (found ++ [(b :: stack).map Block.pruned])
      rw [List.append_assoc] at htail
      rw [Block.prunedChain_eq_map] at hstack
      exact hstack.trans htail

end Import

namespace Workspace

open Import (Kept State Leads)

theorem proper_document {w : Workspace} (h : ∀ b ∈ w.blocks, b.Attributable) : w.node.Proper := by
  have hvars : Node.AllProper (if w.vars.isEmpty then [] else
      [.element "variables" [] (w.vars.map Variable.node)]) := by
    split
    next => trivial
    next =>
      refine Block.allProper_singleton (Block.proper_element ⟨by decide, List.all_eq_true.1 rfl, by simp, by simp⟩ ?_)
      induction w.vars with
      | nil => trivial
      | cons v vars ih =>
        rw [List.map_cons, Node.AllProper]
        exact ⟨Block.proper_ofText (Import.named_variable v.id) v.name, ih⟩
  have hchains : Node.AllProper (w.stackList.flatMap Block.chainNodes) := by
    rw [blocks] at h
    revert h
    induction w.stackList with
    | nil => exact fun _ => trivial
    | cons chain chains ih =>
      intro h
      rw [List.flatMap_cons] at h ⊢
      exact Block.allProper_append (Block.proper_chain chain fun c hc => h c (List.mem_append_left _ hc))
        (ih fun c hc => h c (List.mem_append_right _ hc))
  exact Block.proper_element ⟨by decide, List.all_eq_true.1 rfl, by decide, by simp⟩
    (Block.allProper_append hvars hchains)

theorem ofXml_of_kept {w : Workspace} (h : ∀ b ∈ w.blocks, Kept b) : ofXml w.toXml = .ok w.pruned := by
  have hroot : Leads .seeking [.startTag (Import.tagOf "xml" [("xmlns", xmlNamespace)])]
      (.reading .empty .top) := by
    intro rest
    have hname : (Import.tagOf "xml" [("xmlns", xmlNamespace)]).name = "xml" :=
      Import.name_tagOf ⟨by decide, List.all_eq_true.1 rfl, by decide, by simp⟩
    have hstep : State.seeking.step (.startTag (Import.tagOf "xml" [("xmlns", xmlNamespace)])) =
        .ok (.reading .empty .top) := by
      simp only [State.step, Import.atSeeking, hname, if_true]
    change (do (← State.seeking.step (.startTag _)).run rest) = _
    rw [hstep]
    rfl
  have hend : Leads (.reading w.pruned .top) [.text (Node.gap 0), .endTag] (.finished w.pruned) :=
    .cons (Import.leads_of_step rfl) (Import.leads_of_step rfl)
  have hread := (hroot.cons ((Import.leads_variableList w.vars [] 1).trans
    ((Import.leads_stacks w.vars [] w.stackList 1 h).trans hend))) [.eof]
  rw [← List.append_assoc (Node.eventsAll _ _), ← Import.eventsAll_append] at hread
  have hproper := proper_document fun b hb => (h b hb).attributable
  rw [ofXml, toXml, String.toList_ofList, Node.scan_chars hproper, node, Node.events]
  exact hread

/-- A saved workspace is loaded as it was, without its empty stacks and chains, and is saved as before. -/
theorem ofXml_toXml {w : Workspace} (h : ∀ b ∈ w.blocks, b.Storable) :
    ofXml w.toXml = .ok w.pruned ∧ w.pruned.toXml = w.toXml :=
  ⟨ofXml_of_kept fun b hb => (h b hb).kept, toXml_pruned w⟩

/-- A loop with an empty chain in it, over a socket whose shadow lies under a plugged block. -/
def shadowedLoop : Workspace :=
  let number := { Block.ofKind "n" "math_number" with fields := .singleton "NUM" ⟨"2", none⟩ }
  let name := { Block.ofKind "v" "variables_get" with
    fields := .singleton "VAR" ⟨"", some "a&b"⟩, mutation := .singleton "items" "<3>" }
  let loop := { Block.ofKind "loop" "controls_repeat_ext" with
    position := some (-12, 9007199254740992), disabled := true
    values := .singleton "TIMES" ⟨some name, some number⟩, statements := .singleton "DO" [] }
  ⟨[⟨some "a&b", " x\n"⟩], [[], [loop, name]]⟩

theorem shadowedLoop_loads : (∀ b ∈ shadowedLoop.blocks, b.Storable) ∧
    ofXml shadowedLoop.toXml = .ok shadowedLoop.pruned ∧
      shadowedLoop.pruned.toXml = shadowedLoop.toXml := by
  have h : ∀ b ∈ shadowedLoop.blocks, b.Storable := by decide +kernel
  exact ⟨h, ofXml_toXml h⟩

end Workspace

end ScopeBlocks
