import ScopeBlocks.Proofs.Workspace.OpenElements
import ScopeBlocks.Workspace.Build

/-! Empty elements. An element with nothing in it is written with one tag or with two, and both are read alike, but
for the inputs of a block and the list of variables: with two tags they are recorded as empty ones, with one tag they
are passed over. -/
namespace ScopeBlocks

open Xml (Event Tag Before IsTag emptyElement pairedElement tagName)

namespace Import

/-- Whether an element in some open elements is passed over where it has one tag, though it is recorded where it has
two: the list of variables in the root, and the inputs of a block. -/
def overlooked (names : List (List Char)) (name : String) : Bool :=
  names == ["xml".toList] && name == "variables" || isBlock names && slotNames.contains name

variable {names : List (List Char)} {s : State} {t : Tag}

theorem overlooked_top (name : String) : overlooked ["xml".toList] name = (name == "variables") := by
  simp [overlooked, isBlock]

theorem overlooked_block {outer : Path} (h : outer.Fits names) (name : String) :
    overlooked names name = slotNames.contains name := by
  have hroot : names ≠ ["xml".toList] := by
    rintro rfl
    exact absurd (isBlock_of_fits h) (by decide)
  rw [overlooked, beq_false_of_ne hroot, isBlock_of_fits h]
  rfl

theorem not_overlooked {first : String} {inside : List (List Char)} (hroot : first ≠ "xml")
    (hrole : first ∉ roleNames) (name : String) : overlooked (first.toList :: inside) name = false := by
  have htop : first.toList :: inside ≠ ["xml".toList] := fun heq =>
    hroot (String.toList_inj.1 (List.cons.inj heq).1)
  rw [overlooked, isBlock_eq_false hrole, beq_false_of_ne htop]
  rfl

/-- The steps of the two tags of an element with nothing between them. -/
def State.pass (s : State) (t : Tag) : Except ImportError State := s.step (.startTag t) >>= fun s => s.step .endTag

theorem step_meaning (w : Workspace) {place : Place} (h : place.Fits names) (ht : overlooked names t.name = false)
    (hname : t.name ∈ place.meanings) :
    (State.reading w place).step (.emptyTag t) = (State.reading w place).pass t := by
  cases place with
  | top =>
    rw [show names = ["xml".toList] from h, overlooked_top, beq_eq_false_iff_ne] at ht
    have hblock : t.name = "block" := by simpa [Place.meanings, ht] using hname
    simp only [State.pass, State.step, Place.step, atTop, hblock]
    cases opened .plugged t <;> rfl
  | varList found =>
    have hvariable : t.name = "variable" := by simpa [Place.meanings] using hname
    simp only [State.pass, State.step, Place.step, atVariables, hvariable]
    cases attributes t <;> rfl
  | block outer b =>
    rw [overlooked_block h] at ht
    have hslot : t.name ∉ slotNames := by simpa using ht
    have hkind : t.name = "mutation" ∨ t.name = "field" := by
      simpa [Place.meanings, hslot] using hname
    rcases hkind with hkind | hkind <;>
      simp only [State.pass, State.step, Place.step, atBlock, hkind] <;> cases attributes t <;> rfl
  | input outer b i =>
    have hrole : t.name = "block" ∨ t.name = "shadow" := by simpa [Place.meanings, roleNames] using hname
    rcases hrole with hrole | hrole <;> simp only [State.pass, State.step, Place.step, atInput, hrole]
    · cases opened .plugged t <;> rfl
    · cases opened .shadow t <;> rfl
  | varText | field => cases hname

/-- An element that is not overlooked is read alike with one tag and with two. -/
theorem step_pass (h : s.Fits names) (ht : overlooked names t.name = false) :
    s.step (.emptyTag t) = s.pass t := by
  cases s with
  | seeking =>
    simp only [State.pass, State.step, atSeeking]
    split <;> rfl
  | finished | skipping => rfl
  | reading w place =>
    by_cases hname : t.name ∈ place.meanings
    · exact step_meaning w h ht hname
    by_cases hattributes : place.readsAttributes = true → ∃ a, attributes t = .ok a
    · obtain ⟨hempty, hstart⟩ := step_meaningless w hname hattributes
      rw [State.pass, hempty, hstart]
      rfl
    · cases place with
      | block outer b =>
        simp only [State.pass, State.step, Place.step, atBlock]
        cases ha : attributes t with
        | error e => rfl
        | ok a => exact absurd (fun _ => ⟨a, ha⟩) hattributes
      | top | varList | varText | field | input => exact absurd (fun h => by cases h) hattributes

theorem step_overlooked (h : s.Fits names) (ht : overlooked names t.name = true) {a : Dict String}
    (ha : attributes t = .ok a) : s.step (.emptyTag t) = .ok s ∧ s.deaf = true := by
  cases s with
  | seeking =>
    rw [show names = [] from h] at ht
    cases ht
  | finished | skipping => exact ⟨rfl, rfl⟩
  | reading w place =>
    cases place with
    | top =>
      rw [show names = ["xml".toList] from h, overlooked_top, beq_iff_eq] at ht
      exact ⟨by simp only [State.step, Place.step, atTop, ht]; rfl, rfl⟩
    | varList found =>
      rw [show names = _ from h, not_overlooked (by decide) (by decide)] at ht
      cases ht
    | varText found id text =>
      rw [show names = _ from h, not_overlooked (by decide) (by decide)] at ht
      cases ht
    | block outer b =>
      rw [overlooked_block h] at ht
      have hslot : t.name = "value" ∨ t.name = "statement" ∨ t.name = "next" := by
        simpa [slotNames] using ht
      refine ⟨?_, rfl⟩
      rcases hslot with hslot | hslot | hslot <;>
        simp only [State.step, Place.step, atBlock, ha, hslot] <;> rfl
    | field outer b name id text =>
      obtain ⟨inside, rfl, -⟩ := h
      rw [not_overlooked (by decide) (by decide)] at ht
      cases ht
    | input outer b i =>
      obtain ⟨slot, hslot, inside, rfl, -⟩ := h
      have hother : ∀ slot ∈ slotNames, slot ≠ "xml" ∧ slot ∉ roleNames := by decide
      obtain ⟨hroot, hrole⟩ := hother slot hslot
      rw [not_overlooked hroot hrole] at ht
      cases ht

end Import

namespace Workspace

open Import (State overlooked reads_before reads_text reads_markup reads_of_deaf step_fits step_pass step_overlooked
  ofXml_eq_reads)

/-- An empty element is read alike with one tag and with two, at every place of a document where it is not
overlooked. An overlooked one with one tag is read as if it were not there. -/
theorem ofXml_spelled {before : String} {names : List (List Char)} {run : List Char}
    (place : Before before.toList names run) {tag : String} (ht : IsTag tag.toList) (after : String) :
    (overlooked names (tagName tag) = false →
      ofXml (before ++ emptyElement tag ++ after) = ofXml (before ++ pairedElement tag ++ after) ∧
      Build.ofDocument (before ++ emptyElement tag ++ after) =
        Build.ofDocument (before ++ pairedElement tag ++ after)) ∧
    (overlooked names (tagName tag) = true → (∃ a, Tag.attributes ⟨tag.toList⟩ = .ok a) →
      ofXml (before ++ emptyElement tag ++ after) = ofXml (before ++ after)) := by
  simp only [Build.ofDocument, String.append_assoc]
  rcases ofXml_place place with ⟨r, hr⟩ | ⟨s, hs, hreads⟩
  · simp only [hr]
    simp
  have hempty : (emptyElement tag ++ after).toList = '<' :: (tag.toList ++ '/' :: '>' :: after.toList) := by
    rw [String.toList_append, Xml.toList_emptyElement]
    simp
  have hpaired : (pairedElement tag ++ after).toList = '<' :: (tag.toList ++ '>' ::
      ('<' :: ('/' :: (Tag.nameChars ⟨tag.toList⟩ ++ []) ++ '>' :: after.toList))) := by
    rw [String.toList_append, Xml.toList_pairedElement]
    simp
  constructor
  · intro hover
    suffices hsame : ofXml (before ++ (emptyElement tag ++ after)) =
        ofXml (before ++ (pairedElement tag ++ after)) from ⟨hsame, by rw [hsame]⟩
    rw [hreads, hreads, hempty, hpaired, reads_text s place.ne_of_mem_run (by simp),
      reads_text s place.ne_of_mem_run (by simp)]
    cases htext : s.step (.text run) with
    | error e => rfl
    | ok s₁ =>
      have hfits : s₁.Fits names := step_fits hs htext
      have hname := ht.markup_end names after.toList (fun _ hc => absurd hc List.not_mem_nil) (.inr rfl)
      change s₁.reads names _ = s₁.reads names _
      rw [reads_markup s₁ (ht.markup_empty names after.toList), reads_markup s₁ (ht.markup_start names _),
        step_pass hfits hover, State.pass, bind_assoc]
      congr 1
      funext s₂
      exact (reads_markup s₂ hname).symm
  · intro hover ⟨a, ha⟩
    have ha : Import.attributes ⟨tag.toList⟩ = .ok a := by rw [Import.attributes, ha]; rfl
    obtain ⟨hstep, hdeaf⟩ := step_overlooked hs hover ha
    rw [hreads, hreads, hempty, reads_of_deaf hdeaf place.ne_of_mem_run, reads_of_deaf hdeaf place.ne_of_mem_run,
      reads_markup s (ht.markup_empty names after.toList), hstep]
    rfl

/-- The head of a document, as far as into a choice that is open. -/
def openChoice : String := "<xml><block type=\"controls_if\" id=\"a\">"

theorem before_openChoice : Before openChoice.toList ["block".toList, "xml".toList] [] := by
  have hroot : Event.markup [] "xml>".toList = .ok (.startTag ⟨"xml".toList⟩, ["xml".toList], []) := by
    decide +kernel
  have hchoice : Event.markup [] "block type=\"controls_if\" id=\"a\">".toList =
      .ok (.startTag ⟨"block type=\"controls_if\" id=\"a\"".toList⟩, ["block".toList], []) := by
    decide +kernel
  exact (Before.start.markup hroot).markup hchoice

theorem openChoice_spelled :
    ofXml (openChoice ++ emptyElement "field name='VAR'" ++ "</block></xml>") =
        ofXml (openChoice ++ pairedElement "field name='VAR'" ++ "</block></xml>") ∧
      ofXml (openChoice ++ emptyElement "statement name='ELSE'" ++ "</block></xml>") =
        ofXml (openChoice ++ "</block></xml>") := by
  have hfield : IsTag "field name='VAR'".toList :=
    ⟨⟨'f', rfl, by decide⟩, by decide +kernel, by decide, by decide +kernel⟩
  have hbranch : IsTag "statement name='ELSE'".toList :=
    ⟨⟨'s', rfl, by decide⟩, by decide +kernel, by decide, by decide +kernel⟩
  have hread : Tag.attributes ⟨"statement name='ELSE'".toList⟩ = .ok (.singleton "name" "ELSE") := by
    decide +kernel
  exact ⟨((ofXml_spelled before_openChoice hfield _).1 (by decide +kernel)).1,
    (ofXml_spelled before_openChoice hbranch _).2 (by decide +kernel) ⟨_, hread⟩⟩

/-- With two tags the branch is there, and with it the code of a choice that has one. -/
theorem openChoice_branch :
    ((Build.ofDocument (openChoice ++ emptyElement "statement name='ELSE'" ++ "</block></xml>")).toOption.map
        (·.compiled.code) = some "mark(\"a\");\nif (false) \x7b\n\x7d\n") ∧
    ((Build.ofDocument (openChoice ++ pairedElement "statement name='ELSE'" ++ "</block></xml>")).toOption.map
        (·.compiled.code) = some "mark(\"a\");\nif (false) \x7b\n\x7d else \x7b\n\x7d\n") := by
  decide +kernel

end Workspace

end ScopeBlocks
