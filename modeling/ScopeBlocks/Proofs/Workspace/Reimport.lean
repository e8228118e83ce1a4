import ScopeBlocks.Proofs.Workspace.Pruned
import ScopeBlocks.Proofs.Xml.NodeReadBack
import ScopeBlocks.Workspace.Import

/-! Written workspaces read back. The events of each part of a document lead the reader from one state to
another, whatever follows them; the events of a block lead to the state in which the block is finished,
without its empty chains. -/
namespace ScopeBlocks.Import

open Xml (Event Tag Node Named PlainName)

/-- Some events take the reader from one state to another, whatever comes after them. -/
def Leads (s : State) (es : List Event) (t : State) : Prop := ∀ rest, s.run (es ++ rest) = t.run rest

namespace Leads

variable {s t u : State} {es fs : List Event}

theorem refl (s : State) : Leads s [] s := fun _ => rfl

theorem trans (h : Leads s es t) (h' : Leads t fs u) : Leads s (es ++ fs) u := fun rest => by
  rw [List.append_assoc, h, h']

theorem cons {e : Event} (h : Leads s [e] t) (h' : Leads t fs u) : Leads s (e :: fs) u := h.trans h'

end Leads

variable {w : Workspace} {outer : Path} {b : OpenBlock} {i : OpenInput}

theorem leads_of_step {place : Place} {e : Event} {t : State}
    (h : (State.reading w place).step e = .ok t) : Leads (.reading w place) [e] t := fun rest => by
  rw [List.singleton_append]
  change (do (← (State.reading w place).step e).run rest) = _
  rw [h]
  rfl

/-- Where a block may stand: on its own, or in the innermost open input. -/
def around : Path → Place
  | [] => .top
  | (b, i) :: outer => .input outer b i

theorem leads_text_around (run : List Char) :
    Leads (.reading w (around outer)) [.text run] (.reading w (around outer)) := by
  cases outer <;> exact leads_of_step rfl

theorem leads_text_block (run : List Char) :
    Leads (.reading w (.block outer b)) [.text run] (.reading w (.block outer b)) := leads_of_step rfl

theorem leads_text_input (run : List Char) :
    Leads (.reading w (.input outer b i)) [.text run] (.reading w (.input outer b i)) :=
  leads_of_step rfl

def Role.tag : Role → String
  | .plugged => "block"
  | .shadow => "shadow"

/-- Shadows stand in inputs only. -/
def Role.Fits (role : Role) (outer : Path) : Prop := role = .shadow → outer ≠ []

theorem leads_open {role : Role} {t : Tag} (hrole : role.Fits outer) (hname : t.name = role.tag)
    (ht : opened role t = .ok b) :
    Leads (.reading w (around outer)) [.startTag t] (.reading w (.block outer b)) := by
  apply leads_of_step
  cases outer with
  | nil =>
    cases role with
    | plugged =>
      change atTop w (.startTag t) = _
      simp only [atTop, hname, Role.tag, ht]
      rfl
    | shadow => exact absurd rfl (hrole rfl)
  | cons c outer =>
    change atInput w outer c.1 c.2 (.startTag t) = _
    cases role <;> simp only [atInput, hname, Role.tag, ht] <;> rfl

theorem leads_whole {role : Role} {t : Tag} (hrole : role.Fits outer) (hname : t.name = role.tag)
    (ht : opened role t = .ok b) :
    Leads (.reading w (around outer)) [.emptyTag t] (finish w outer b) := by
  apply leads_of_step
  cases outer with
  | nil =>
    cases role with
    | plugged =>
      change atTop w (.emptyTag t) = _
      simp only [atTop, hname, Role.tag, ht]
      rfl
    | shadow => exact absurd rfl (hrole rfl)
  | cons c outer =>
    change atInput w outer c.1 c.2 (.emptyTag t) = _
    cases role <;> simp only [atInput, hname, Role.tag, ht] <;> rfl

def tagOf (name : String) (attributes : List (String × String)) : Tag := ⟨Node.tagText name attributes⟩

section Tags

variable (w outer b) {name : String} {as : List (String × String)}

theorem name_tagOf (h : Named name as) : (tagOf name as).name = name := by
  rw [Tag.name, tagOf, h.name_tag, String.ofList_toList]

theorem attributes_tagOf (h : Named name as) : attributes (tagOf name as) = .ok (.ofList as) := by
  rw [attributes, tagOf, h.attributes_tag]
  rfl

theorem block_mutation (h : Named "mutation" as) : Leads (.reading w (.block outer b))
    [.emptyTag (tagOf "mutation" as)] (.reading w (.block outer (b.mutate (.ofList as)))) := by
  apply leads_of_step
  change atBlock w outer b (.emptyTag (tagOf "mutation" as)) = _
  simp only [atBlock, attributes_tagOf h, name_tagOf h]
  rfl

theorem block_emptyField (h : Named "field" as) : Leads (.reading w (.block outer b))
    [.emptyTag (tagOf "field" as)] (.reading w (.block outer (b.setField
      (((Dict.ofList as).get? "name").getD "") ⟨"", (Dict.ofList as).get? "id"⟩))) := by
  apply leads_of_step
  change atBlock w outer b (.emptyTag (tagOf "field" as)) = _
  simp only [atBlock, attributes_tagOf h, name_tagOf h]
  rfl

theorem block_field (h : Named "field" as) : Leads (.reading w (.block outer b))
    [.startTag (tagOf "field" as)] (.reading w (.field outer b
      (((Dict.ofList as).get? "name").getD "") ((Dict.ofList as).get? "id") [])) := by
  apply leads_of_step
  change atBlock w outer b (.startTag (tagOf "field" as)) = _
  simp only [atBlock, attributes_tagOf h, name_tagOf h]
  rfl

theorem block_value (h : Named "value" as) : Leads (.reading w (.block outer b))
    [.startTag (tagOf "value" as)] (.reading w (.input outer b
      ⟨.value (((Dict.ofList as).get? "name").getD ""), [], none⟩)) := by
  apply leads_of_step
  change atBlock w outer b (.startTag (tagOf "value" as)) = _
  simp only [atBlock, attributes_tagOf h, name_tagOf h]
  rfl

theorem block_statement (h : Named "statement" as) : Leads (.reading w (.block outer b))
    [.startTag (tagOf "statement" as)] (.reading w (.input outer b
      ⟨.statement (((Dict.ofList as).get? "name").getD ""), [], none⟩)) := by
  apply leads_of_step
  change atBlock w outer b (.startTag (tagOf "statement" as)) = _
  simp only [atBlock, attributes_tagOf h, name_tagOf h]
  rfl

theorem block_next (h : Named "next" as) : Leads (.reading w (.block outer b))
    [.startTag (tagOf "next" as)] (.reading w (.input outer b ⟨.next, [], none⟩)) := by
  apply leads_of_step
  change atBlock w outer b (.startTag (tagOf "next" as)) = _
  simp only [atBlock, attributes_tagOf h, name_tagOf h]
  rfl

end Tags

theorem block_end : Leads (.reading w (.block outer b)) [.endTag] (finish w outer b) :=
  leads_of_step rfl

theorem input_end : Leads (.reading w (.input outer b i)) [.endTag]
    (.reading w (.block outer (b.receive i))) := leads_of_step rfl

theorem Leads.finish {c : OpenBlock} (h : Leads (.reading w (.block outer b)) [] (.reading w (.block outer c))) :
    Leads (finish w outer b) [] (finish w outer c) := fun rest =>
  calc (Import.finish w outer b).run rest
    _ = (State.reading w (.block outer b)).run (.endTag :: rest) := (block_end rest).symm
    _ = (State.reading w (.block outer c)).run (.endTag :: rest) := h (.endTag :: rest)
    _ = (Import.finish w outer c).run rest := block_end rest

theorem leads_content (place done : List Char → Place) (content : String)
    (hstep : ∀ text e, (place text).step w e = atText w place text (done text) e) :
    Leads (.reading w (place [])) [.text (Xml.escape content.toList), .endTag]
      (.reading w (done content.toList)) := by
  refine .cons (leads_of_step (t := .reading w (place content.toList)) ?_) (leads_of_step ?_)
  · change (place []).step w _ = _
    simp only [hstep, atText, Xml.unescape_escape, List.nil_append]
  · change (place content.toList).step w _ = _
    simp only [hstep, atText]

/-! The parts of a block, in the order in which they are written. -/

section Parts

variable {depth : Nat}

theorem leads_mutation (B : Block) (hm : B.mutation.Sorted)
    (hplain : ∀ e ∈ B.mutation.entries, PlainName e.1) :
    Leads (.reading w (.block outer b)) (Node.eventsAll depth B.mutationNodes)
      (.reading w (.block outer (b.mutate B.mutation))) := by
  rw [Block.mutationNodes]
  split
  next hempty =>
    obtain ⟨role, block, rest⟩ := b
    have hsame : block.mutation.union B.mutation = block.mutation := by
      rw [Dict.union, List.isEmpty_iff.1 hempty]
      rfl
    rw [OpenBlock.mutate, hsame]
    cases block
    exact .refl _
  next =>
    have h : Named "mutation" B.mutation.entries := ⟨by decide, List.all_eq_true.1 rfl, hplain, hm.nodup⟩
    have hstep := block_mutation w outer b h
    rw [Dict.ofList_ascending hm] at hstep
    exact .cons (leads_text_block _) hstep

/-- A name and, for a field, an id. -/
def fieldAttributes (name : String) (id : Option String) : List (String × String) :=
  ("name", name) :: (id.map ("id", ·)).toList

theorem named_of_attributes (tag : String) (hne : tag ≠ "")
    (halpha : ∀ c ∈ tag.toList, c.isAlpha = true) (name : String) (id : Option String) :
    Named tag (fieldAttributes name id) := by
  refine ⟨hne, halpha, ?_, by cases id <;> simp [fieldAttributes]⟩
  intro e he
  rcases List.mem_cons.1 he with rfl | he
  · exact show PlainName "name" by decide
  · obtain ⟨value, -, rfl⟩ := Option.map_eq_some_iff.1 (Option.mem_toList.1 he)
    exact show PlainName "id" by decide

theorem get?_fieldAttributes (name : String) (id : Option String) :
    (Dict.ofList (fieldAttributes name id)).get? "name" = some name ∧
      (Dict.ofList (fieldAttributes name id)).get? "id" = id := by
  cases id <;> simp [fieldAttributes, Dict.ofList, Dict.get?_insert]

theorem leads_field (name : String) (f : Field) : Leads (.reading w (.block outer b))
    ((Node.ofText "field" (fieldAttributes name f.id) f.text).events depth)
      (.reading w (.block outer (b.setField name f))) := by
  obtain ⟨text, id⟩ := f
  have h := named_of_attributes "field" (by decide) (List.all_eq_true.1 rfl) name id
  obtain ⟨hname, hid⟩ := get?_fieldAttributes name id
  rw [Node.ofText]
  split
  next hempty =>
    have hstep := block_emptyField w outer b h
    rw [hname, hid] at hstep
    rw [show text = "" by simpa using hempty]
    exact hstep
  next =>
    have hstep := block_field w outer b h
    rw [hname, hid] at hstep
    have hcontent := leads_content (w := w) (.field outer b name id)
      (fun text => .block outer (b.setField name ⟨String.ofList text, id⟩)) text fun _ _ => rfl
    rw [String.ofList_toList] at hcontent
    exact .cons hstep hcontent

theorem leads_fields (es : List (String × Field)) : Leads (.reading w (.block outer b))
    (Node.eventsAll depth (es.map fun (name, f) => .ofText "field" (fieldAttributes name f.id) f.text))
      (.reading w (.block outer { b with block.fields := b.block.fields.union ⟨es⟩ })) := by
  induction es generalizing b with
  | nil =>
    obtain ⟨role, block, rest⟩ := b
    cases block
    exact .refl _
  | cons e es ih => exact .cons (leads_text_block _) ((leads_field e.1 e.2).trans ih)

theorem leads_element {name : String} {as : List (String × String)} {children : List Node}
    {filled : OpenInput}
    (hstart : Leads (.reading w (.block outer b)) [.startTag (tagOf name as)]
      (.reading w (.input outer b i)))
    (hchildren : Leads (.reading w (.input outer b i)) (Node.eventsAll (depth + 1) children)
      (.reading w (.input outer b filled))) :
    Leads (.reading w (.block outer b)) ((Node.element name as children).events depth)
      (.reading w (.block outer (b.receive filled))) := by
  rw [Node.events]
  exact .cons hstart (hchildren.trans (.cons (leads_text_input _) input_end))

theorem start_value (name : String) : Leads (.reading w (.block outer b))
    [.startTag (tagOf "value" [("name", name)])] (.reading w (.input outer b ⟨.value name, [], none⟩)) := by
  have h := block_value w outer b
    (named_of_attributes "value" (by decide) (List.all_eq_true.1 rfl) name none)
  rwa [(get?_fieldAttributes name none).1] at h

theorem start_statement (name : String) : Leads (.reading w (.block outer b))
    [.startTag (tagOf "statement" [("name", name)])]
      (.reading w (.input outer b ⟨.statement name, [], none⟩)) := by
  have h := block_statement w outer b
    (named_of_attributes "statement" (by decide) (List.all_eq_true.1 rfl) name none)
  rwa [(get?_fieldAttributes name none).1] at h

theorem start_next : Leads (.reading w (.block outer b))
    [.startTag (tagOf "next" [])] (.reading w (.input outer b ⟨.next, [], none⟩)) :=
  block_next w outer b ⟨by decide, List.all_eq_true.1 rfl, by simp, by simp⟩

end Parts

def finishChain (w : Workspace) (outer : Path) : List Block → State
  | [] => .reading w (around outer)
  | b :: rest => finish w outer ⟨.plugged, b, rest⟩

theorem finishChain_input (h : i.chain = []) (chain : List Block) :
    finishChain w ((b, i) :: outer) chain = .reading w (.input outer b { i with chain }) := by
  obtain ⟨slot, old, shadow⟩ := i
  cases chain with
  | nil => rw [show old = [] from h]; rfl
  | cons B rest => rfl

/-- An input after a block that may be written in it. -/
def OpenInput.receiveOption (i : OpenInput) (role : Role) : Option Block → OpenInput
  | none => i
  | some B => i.receive ⟨role, B, []⟩

theorem receive_shadow (slot : Slot) (shadow : Option Block) :
    OpenInput.receiveOption ⟨slot, [], none⟩ .shadow shadow = ⟨slot, [], shadow⟩ := by
  cases shadow <;> rfl

theorem receive_plugged (slot : Slot) (block shadow : Option Block) :
    OpenInput.receiveOption ⟨slot, [], shadow⟩ .plugged block = ⟨slot, block.toList, shadow⟩ := by
  cases block <;> rfl

/-- What a document keeps of a block: its entries in the order of their names, the names of its mutation as
attributes, and where it stands. -/
structure Kept (b : Block) : Prop where
  fields : b.fields.Sorted
  values : b.values.Sorted
  statements : b.statements.Sorted
  mutation : b.mutation.Sorted
  plain : ∀ e ∈ b.mutation.entries, PlainName e.1
  position : ∀ x y, b.position = some (x, y) →
    coordinate (toString x) = .ok x ∧ coordinate (toString y) = .ok y

namespace Kept

variable {B : Block}

theorem named (role : Role) (B : Block) : Named role.tag B.xmlAttributes := by
  obtain ⟨id, kind, position, disabled, fields, values, statements, mutation⟩ := B
  have hplain : PlainName "type" ∧ PlainName "id" ∧ PlainName "x" ∧ PlainName "y" ∧
      PlainName "disabled" := by decide
  refine ⟨by cases role <;> decide, by cases role <;> exact List.all_eq_true.1 rfl, ?_, ?_⟩
  all_goals cases position <;> cases disabled <;> simp [Block.xmlAttributes, hplain]

theorem get?_xmlAttributes (B : Block) :
    (Dict.ofList B.xmlAttributes).get? "id" = some B.id ∧
    (Dict.ofList B.xmlAttributes).get? "type" = some B.kind ∧
    (Dict.ofList B.xmlAttributes).get? "x" = B.position.map (toString ·.1) ∧
    (Dict.ofList B.xmlAttributes).get? "y" = B.position.map (toString ·.2) ∧
    ((Dict.ofList B.xmlAttributes).get? "disabled" == some "true") = B.disabled := by
  obtain ⟨id, kind, position, disabled, fields, values, statements, mutation⟩ := B
  cases position <;> cases disabled <;>
    simp [Block.xmlAttributes, Dict.ofList, Dict.get?_insert]

/-- A block as its tag alone tells it. -/
def bare (role : Role) (B : Block) : OpenBlock :=
  ⟨role, ⟨B.id, B.kind, B.position, B.disabled, .empty, .empty, .empty, .empty⟩, []⟩

theorem opened_tag (h : Kept B) (role : Role) :
    opened role (tagOf role.tag B.xmlAttributes) = .ok (bare role B) := by
  obtain ⟨hid, hkind, hx, hy, hdisabled⟩ := get?_xmlAttributes B
  have hposition : Import.position (.ofList B.xmlAttributes) = .ok B.position := by
    rw [Import.position, hx, hy]
    cases hp : B.position with
    | none => rfl
    | some p =>
      obtain ⟨hx, hy⟩ := h.position p.1 p.2 hp
      simp only [Option.map_some, hx, hy]
      rfl
  rw [opened, attributes_tagOf (named role B)]
  change (do
    let p ← Import.position (.ofList B.xmlAttributes)
    _) = _
  rw [hposition]
  simp only [hid, hkind, hdisabled]
  rfl

theorem values_pruned {values : List (String × Socket Block)} (h : Dict.Ascending values) :
    Dict.Ascending (Block.prunedSockets values) := by
  rw [Block.prunedSockets_eq_map]
  exact h.map fun _ => rfl

theorem statements_pruned {statements : List (String × List Block)} (h : Dict.Ascending statements) :
    Dict.Ascending (Block.prunedChains statements) := by
  rw [Block.prunedChains_eq_map]
  exact Dict.Ascending.map (h.filter _) fun _ => rfl

end Kept

theorem eventsAll_append (depth : Nat) (ms ns : List Node) :
    Node.eventsAll depth (ms ++ ns) = Node.eventsAll depth ms ++ Node.eventsAll depth ns := by
  induction ms with
  | nil => rfl
  | cons m ms ih => simp [Node.eventsAll, ih]

/-- The parts of a block fill the block that its tag has opened. -/
theorem leads_parts {w : Workspace} {outer : Path} (role : Role) {depth : Nat} {next : List Node}
    {rest : List Block} {B : Block} (hB : Kept B)
    (hvalues : ∀ b : OpenBlock, Leads (.reading w (.block outer b))
      (Node.eventsAll depth (Block.valueNodes B.values.entries)) (.reading w (.block outer
        { b with block.values := b.block.values.union ⟨Block.prunedSockets B.values.entries⟩ })))
    (hstatements : ∀ b : OpenBlock, Leads (.reading w (.block outer b))
      (Node.eventsAll depth (Block.statementNodes B.statements.entries)) (.reading w (.block outer
        { b with
          block.statements := b.block.statements.union ⟨Block.prunedChains B.statements.entries⟩ })))
    (hnext : ∀ b : OpenBlock, b.rest = [] → Leads (.reading w (.block outer b))
      (Node.eventsAll depth next) (.reading w (.block outer { b with rest }))) :
    Leads (.reading w (.block outer (Kept.bare role B)))
      (Node.eventsAll depth (B.mutationNodes ++ B.fieldNodes ++ Block.valueNodes B.values.entries ++
        Block.statementNodes B.statements.entries ++ next))
      (.reading w (.block outer ⟨role, B.pruned, rest⟩)) := by
  let V : Dict (Socket Block) := ⟨Block.prunedSockets B.values.entries⟩
  let S : Dict (List Block) := ⟨Block.prunedChains B.statements.entries⟩
  let filled (f : Dict Field) (v : Dict (Socket Block)) (s : Dict (List Block)) (m : Dict String) :
      OpenBlock := ⟨role, ⟨B.id, B.kind, B.position, B.disabled, f, v, s, m⟩, []⟩
  have hm : Leads (.reading w (.block outer (Kept.bare role B))) (Node.eventsAll depth B.mutationNodes)
      (.reading w (.block outer (filled .empty .empty .empty B.mutation))) := by
    have h : Leads (.reading w (.block outer (Kept.bare role B))) (Node.eventsAll depth B.mutationNodes) _ :=
      leads_mutation B hB.mutation hB.plain
    rwa [OpenBlock.mutate, show (Kept.bare role B).block.mutation = .empty by rfl,
      Dict.empty_union hB.mutation] at h
  have hf : Leads (.reading w (.block outer (filled .empty .empty .empty B.mutation)))
      (Node.eventsAll depth B.fieldNodes)
      (.reading w (.block outer (filled B.fields .empty .empty B.mutation))) := by
    have h : Leads (.reading w (.block outer (filled .empty .empty .empty B.mutation)))
        (Node.eventsAll depth B.fieldNodes) _ := leads_fields B.fields.entries
    rwa [show (filled .empty .empty .empty B.mutation).block.fields = .empty by rfl,
      Dict.empty_union (d := ⟨B.fields.entries⟩) hB.fields] at h
  have hv := hvalues (filled B.fields .empty .empty B.mutation)
  rw [show (filled B.fields .empty .empty B.mutation).block.values = .empty by rfl,
    Dict.empty_union (d := V) (Kept.values_pruned hB.values)] at hv
  have hs := hstatements (filled B.fields V .empty B.mutation)
  rw [show (filled B.fields V .empty B.mutation).block.statements = .empty by rfl,
    Dict.empty_union (d := S) (Kept.statements_pruned hB.statements)] at hs
  have hn := hnext (filled B.fields V S B.mutation) rfl
  have hpruned : B.pruned = ⟨B.id, B.kind, B.position, B.disabled, B.fields, V, S, B.mutation⟩ := by
    cases B
    rfl
  simp only [eventsAll_append, hpruned]
  exact (((hm.trans hf).trans hv).trans hs).trans hn

mutual

/-- The element of a block adds the block without its empty chains, and what is chained after it. -/
theorem leads_node (w : Workspace) (outer : Path) (role : Role) (depth : Nat) (next : List Node)
    (rest : List Block) (hrole : role.Fits outer)
    (hnext : ∀ b : OpenBlock, b.rest = [] → Leads (.reading w (.block outer b))
      (Node.eventsAll (depth + 1) next) (.reading w (.block outer { b with rest }))) :
    (B : Block) → (∀ c ∈ B.subtree, Kept c) →
      Leads (.reading w (around outer)) ((B.node role.tag next).events depth)
        (finish w outer ⟨role, B.pruned, rest⟩)
  | ⟨id, kind, position, disabled, fields, ⟨values⟩, ⟨statements⟩, mutation⟩, h => by
    have hB := h _ (by rw [Block.subtree]; exact List.mem_cons_self)
    have hvalues : ∀ c ∈ Block.socketsSubtree values, Kept c := fun c hc => h c (by
      rw [Block.subtree]
      exact List.mem_cons_of_mem _ (List.mem_append_left _ hc))
    have hstatements : ∀ c ∈ Block.chainsSubtree statements, Kept c := fun c hc => h c (by
      rw [Block.subtree]
      exact List.mem_cons_of_mem _ (List.mem_append_right _ hc))
    have hparts := leads_parts role hB (fun b => leads_values w outer b (depth + 1) values hvalues)
      (fun b => leads_statements w outer b (depth + 1) statements hstatements) hnext
    have hopened := hB.opened_tag role
    have hname := name_tagOf (Kept.named role
      ⟨id, kind, position, disabled, fields, ⟨values⟩, ⟨statements⟩, mutation⟩)
    rw [Block.node, Block.nodeWith]
    split
    next hempty =>
      rw [List.isEmpty_iff.1 hempty] at hparts
      exact (leads_whole hrole hname hopened).trans hparts.finish
    next =>
      rw [Node.events]
      exact .cons (leads_open hrole hname hopened) (hparts.trans (.cons (leads_text_block _) block_end))

theorem leads_option (w : Workspace) (outer : Path) (b : OpenBlock) (i : OpenInput) (role : Role)
    (depth : Nat) : (B : Option Block) → (∀ c ∈ Block.optionSubtree B, Kept c) →
      Leads (.reading w (.input outer b i)) (Node.eventsAll depth (Block.optionNodes role.tag B))
        (.reading w (.input outer b (i.receiveOption role (Block.prunedOption B))))
  | none, _ => .refl _
  | some B, h => by
    have hnode := leads_node w ((b, i) :: outer) role depth [] [] (fun _ => List.cons_ne_nil _ _)
      (fun b hb => by rw [← hb]; exact .refl _) B h
    rw [Block.optionNodes, Node.eventsAll, Node.eventsAll, List.append_nil]
    exact .cons (leads_text_input _) hnode

theorem leads_values (w : Workspace) (outer : Path) (b : OpenBlock) (depth : Nat) :
    (values : List (String × Socket Block)) → (∀ c ∈ Block.socketsSubtree values, Kept c) →
      Leads (.reading w (.block outer b)) (Node.eventsAll depth (Block.valueNodes values))
        (.reading w (.block outer
          { b with block.values := b.block.values.union ⟨Block.prunedSockets values⟩ }))
  | [], _ => by
    obtain ⟨role, block, rest⟩ := b
    cases block
    exact .refl _
  | (name, ⟨block, shadow⟩) :: rest, h => by
    rw [Block.socketsSubtree] at h
    have hshadow := leads_option w outer b ⟨.value name, [], none⟩ .shadow (depth + 1) shadow
      fun c hc => h c (List.mem_append_left _ (List.mem_append_right _ hc))
    have hblock := leads_option w outer b ⟨.value name, [], Block.prunedOption shadow⟩ .plugged
      (depth + 1) block fun c hc => h c (List.mem_append_left _ (List.mem_append_left _ hc))
    rw [receive_shadow] at hshadow
    rw [receive_plugged] at hblock
    have hboth := hshadow.trans hblock
    rw [← eventsAll_append] at hboth
    have hsocket := leads_element (start_value name) hboth
    have hrest := leads_values w outer (b.receive ⟨.value name, (Block.prunedOption block).toList,
      Block.prunedOption shadow⟩) depth rest fun c hc => h c (List.mem_append_right _ hc)
    have hhead : (Block.prunedOption block).toList.head? = Block.prunedOption block := by
      cases Block.prunedOption block <;> rfl
    rw [OpenBlock.receive, hhead] at hrest hsocket
    rw [Block.valueNodes, Node.eventsAll, Block.prunedSockets]
    exact .cons (leads_text_block _) (hsocket.trans hrest)

theorem leads_statements (w : Workspace) (outer : Path) (b : OpenBlock) (depth : Nat) :
    (statements : List (String × List Block)) → (∀ c ∈ Block.chainsSubtree statements, Kept c) →
      Leads (.reading w (.block outer b)) (Node.eventsAll depth (Block.statementNodes statements))
        (.reading w (.block outer
          { b with block.statements := b.block.statements.union ⟨Block.prunedChains statements⟩ }))
  | [], _ => by
    obtain ⟨role, block, rest⟩ := b
    cases block
    exact .refl _
  | (name, chain) :: rest, h => by
    rw [Block.chainsSubtree] at h
    have hrest : ∀ c ∈ Block.chainsSubtree rest, Kept c := fun c hc => h c (List.mem_append_right _ hc)
    rw [Block.statementNodes, Block.prunedChains]
    split
    next => exact leads_statements w outer b depth rest hrest
    next =>
      have hchain := leads_chain w ((b, ⟨.statement name, [], none⟩) :: outer) (depth + 1) chain
        fun c hc => h c (List.mem_append_left _ hc)
      rw [finishChain_input rfl] at hchain
      have hslot := leads_element (start_statement name) hchain
      exact .cons (leads_text_block _) (hslot.trans
        (leads_statements w outer (b.receive ⟨.statement name, Block.prunedChain chain, none⟩) depth rest hrest))

theorem leads_chain (w : Workspace) (outer : Path) (depth : Nat) :
    (chain : List Block) → (∀ c ∈ Block.chainSubtree chain, Kept c) →
      Leads (.reading w (around outer)) (Node.eventsAll depth (Block.chainNodes chain))
        (finishChain w outer (Block.prunedChain chain))
  | [], _ => .refl _
  | B :: rest, h => by
    rw [Block.chainSubtree] at h
    have hrest : ∀ c ∈ Block.chainSubtree rest, Kept c := fun c hc => h c (List.mem_append_right _ hc)
    have hnext : ∀ b : OpenBlock, b.rest = [] → Leads (.reading w (.block outer b))
        (Node.eventsAll (depth + 1)
          (if rest.isEmpty then [] else [.element "next" [] (Block.chainNodes rest)]))
        (.reading w (.block outer { b with rest := Block.prunedChain rest })) := by
      intro b hb
      split
      next hempty =>
        rw [List.isEmpty_iff.1 hempty, Block.prunedChain, ← hb]
        exact .refl _
      next =>
        have hchain := leads_chain w ((b, ⟨.next, [], none⟩) :: outer) (depth + 2) rest hrest
        rw [finishChain_input rfl] at hchain
        have hslot := leads_element start_next hchain
        rw [Node.eventsAll, Node.eventsAll, List.append_nil]
        exact .cons (leads_text_block _) hslot
    have hnode := leads_node w outer .plugged depth _ (Block.prunedChain rest) (fun hrole => nomatch hrole) hnext
      B fun c hc => h c (List.mem_append_left _ hc)
    rw [Block.chainNodes, Node.eventsAll, Node.eventsAll, List.append_nil, Block.prunedChain]
    exact .cons (leads_text_around _) hnode

end

end ScopeBlocks.Import
