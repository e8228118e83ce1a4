import ScopeBlocks.Proofs.Workspace.OpenElements
import ScopeBlocks.Proofs.Xml.Content

/-! Foreign content. Comments, text that is no text of a field or a variable, and whole elements with a name that is
not read where they stand make no difference, whatever elements they hold themselves. -/
namespace ScopeBlocks

open Xml (Event Tag Before Aside Content Element TagOf Blank Closed AttributeList IsName Referring)

namespace Import

/-! Where names and text are read. -/

def isInput : List (List Char) → Bool
  | slot :: inside => slotNames.contains (String.ofList slot) && isBlock inside
  | [] => false

/-- The names of the elements that are read in some open elements: in the root, in its list of variables, in a block
and in an input of a block. In a text and in an element that is passed over there are none. -/
def meanings (names : List (List Char)) : List String :=
  if names = ["xml".toList] then ["variables", "block"]
  else if names = ["variables".toList, "xml".toList] then ["variable"]
  else if isBlock names then "mutation" :: "field" :: slotNames
  else if isInput names then roleNames
  else []

/-- Whether the innermost of some open elements is a variable or a field, the text of which is read. -/
def isText : List (List Char) → Bool
  | name :: inside => name :: inside == ["variable".toList, "variables".toList, "xml".toList] ||
      String.ofList name == "field" && isBlock inside
  | [] => false

variable {names : List (List Char)} {s s' : State}

theorem meanings_of_fits {place : Place} (h : place.Fits names) : ∀ name ∈ place.meanings, name ∈ meanings names := by
  have hlists : isBlock ["xml".toList] = false ∧ isBlock ["variables".toList, "xml".toList] = false ∧
      isInput ["xml".toList] = false ∧ isInput ["variables".toList, "xml".toList] = false := by decide +kernel
  have hapart {b : List (List Char) → Bool} (hb : b names = true) (hroot : b ["xml".toList] = false)
      (hlist : b ["variables".toList, "xml".toList] = false) :
      names ≠ ["xml".toList] ∧ names ≠ ["variables".toList, "xml".toList] := by
    constructor <;> rintro rfl <;> simp_all
  cases place with
  | top =>
    obtain rfl : names = _ := h
    exact fun name hname => hname
  | varList found =>
    obtain rfl : names = _ := h
    exact fun name hname => hname
  | block outer b =>
    have hblock := isBlock_of_fits h
    obtain ⟨hroot, hlist⟩ := hapart hblock hlists.1 hlists.2.1
    rw [meanings, if_neg hroot, if_neg hlist, if_pos hblock]
    exact fun name hname => hname
  | input outer b i =>
    obtain ⟨slot, hslot, inside, rfl, houter⟩ := h
    have hinput : isInput (slot.toList :: inside) = true := by simp [isInput, hslot, isBlock_of_fits houter]
    have hother : ∀ slot ∈ slotNames, slot ∉ roleNames := by decide
    obtain ⟨hroot, hlist⟩ := hapart hinput hlists.2.2.1 hlists.2.2.2
    rw [meanings, if_neg hroot, if_neg hlist, isBlock_eq_false (hother slot hslot), if_neg (by decide), if_pos hinput]
    exact fun name hname => hname
  | varText | field => exact fun name hname => absurd hname List.not_mem_nil

theorem deaf_of_fits (h : s.Fits names) (htext : isText names = false) : s.deaf = true := by
  cases s with
  | seeking | skipping | finished => rfl
  | reading w place =>
    cases place with
    | top | varList | block | input => rfl
    | varText found id text =>
      obtain rfl : names = _ := h
      cases htext
    | field outer b name id text =>
      obtain ⟨inside, rfl, houter⟩ := h
      simp [isText, isBlock_of_fits houter] at htext

/-! Elements that are passed over. -/

/-- Whether a state passes over all elements with a name: those of one tag do nothing, and those of two lead to the
state that counts the elements in them and from there back. -/
def State.Passes (s : State) (name : List Char) : Prop := ∀ t, t.nameChars = name → (∃ a, attributes t = .ok a) →
  s.step (.emptyTag t) = .ok s ∧ ∃ w place outer depth,
    s.step (.startTag t) = .ok (.skipping w place outer depth) ∧
      (State.skipping w place outer depth).step .endTag = .ok s

/-- Text that makes no difference in an element that is passed over. -/
def Skipped (text : List Char) : Prop := ∀ (w : Workspace) (place : Place) (outer : String) (depth : Nat)
  (names : List (List Char)) (rest : List Char),
    (State.skipping w place outer depth).reads names (text ++ rest) =
      (State.skipping w place outer depth).reads names rest

theorem skipping_passes (w : Workspace) (place : Place) (outer : String) (depth : Nat) (name : List Char) :
    (State.skipping w place outer depth).Passes name :=
  fun _ _ _ => ⟨rfl, w, place, outer, depth + 1, rfl, rfl⟩

theorem reading_passes {w : Workspace} {place : Place} {name : List Char} (h : place.Fits names)
    (hname : String.ofList name ∉ meanings names) : (State.reading w place).Passes name := by
  intro t ht ha
  have hmeans : t.name ∉ place.meanings := fun hmem =>
    hname (meanings_of_fits h _ (by rwa [Tag.name, ht] at hmem))
  obtain ⟨hempty, hstart⟩ := step_meaningless w hmeans fun _ => ha
  exact ⟨hempty, w, place, t.name, 0, hstart, rfl⟩

theorem step_aside {e : Event} {a : List Char} (h : Aside e a) (hdeaf : s.deaf = true ∨ e = .other) :
    s.step e = .ok s := by
  cases h with
  | comment | instruction =>
    cases s with
    | seeking | skipping | finished => rfl
    | reading w place => cases place <;> rfl
  | cdata =>
    have hdeaf : s.deaf = true := hdeaf.resolve_right (by simp)
    cases s with
    | seeking | skipping | finished => rfl
    | reading w place =>
      cases place with
      | top | varList | block | input => rfl
      | varText | field => cases hdeaf

theorem reads_aside {e : Event} {a : List Char} (h : Aside e a) (hs : s.step e = .ok s) (rest : List Char) :
    s.reads names (a ++ rest) = s.reads names rest := by
  obtain ⟨piece, rfl, hpiece⟩ := h.markup
  rw [List.cons_append, reads_markup s (hpiece names rest), hs]
  rfl

section

variable {name tag : List Char} (htag : TagOf name tag) (hs : s.Passes name)

include htag hs

theorem reads_empty (rest : List Char) :
    s.reads names ('<' :: tag ++ "/>".toList ++ rest) = s.reads names rest := by
  obtain ⟨a, ha⟩ := htag.attributes
  obtain ⟨hempty, -⟩ := hs ⟨tag⟩ htag.nameChars ⟨a, by rw [attributes, ha]; rfl⟩
  have hmarkup := htag.isTag.markup_empty names rest
  rw [List.append_assoc, List.cons_append]
  exact (reads_markup s hmarkup).trans (by rw [hempty]; rfl)

theorem reads_paired {inner blanks : List Char} (hinner : Skipped inner) (hblanks : Blank blanks) (rest : List Char) :
    s.reads names ('<' :: tag ++ '>' :: inner ++ "</".toList ++ name ++ blanks ++ '>' :: rest) =
      s.reads names rest := by
  obtain ⟨a, ha⟩ := htag.attributes
  obtain ⟨-, w, place, outer, depth, hstart, hend⟩ := hs ⟨tag⟩ htag.nameChars ⟨a, by rw [attributes, ha]; rfl⟩
  have htext : '<' :: tag ++ '>' :: inner ++ "</".toList ++ name ++ blanks ++ '>' :: rest =
      '<' :: (tag ++ '>' :: (inner ++ '<' :: ('/' :: (name ++ blanks) ++ '>' :: rest))) := by simp
  have hclose := htag.isTag.markup_end names rest hblanks (.inl (htag.nameChars ▸ htag.isName.1))
  rw [htag.nameChars] at hclose
  rw [htext, reads_markup s (htag.isTag.markup_start names _), hstart]
  change (State.skipping w place outer depth).reads _ _ = _
  rw [hinner, htag.nameChars, reads_markup _ hclose, hend]
  rfl

end

/-- Well-formed content makes no difference in an element that is passed over. The elements in it are passed over in
turn, by the count of what is open. -/
theorem skipped_of_content {text : List Char} (h : Content text) : Skipped text := by
  induction h with
  | nil => exact fun _ _ _ _ _ _ => rfl
  | @char c s hc _ ih =>
    intro w place outer depth names rest
    have hrun : ∀ x ∈ [c], x ≠ '<' := fun x hx => List.mem_singleton.1 hx ▸ hc
    exact (reads_of_deaf rfl hrun (s ++ rest)).trans (ih w place outer depth names rest)
  | aside ha _ ih =>
    intro w place outer depth names rest
    have hstep := step_aside (s := .skipping w place outer depth) ha (.inl rfl)
    rw [List.append_assoc, reads_aside ha hstep, ih]
  | empty htag _ ih =>
    intro w place outer depth names rest
    rw [List.append_assoc, reads_empty htag (skipping_passes w place outer depth _), ih]
  | @paired name tag inner blanks s htag _ hblanks _ ihinner ih =>
    intro w place outer depth names rest
    have htext : '<' :: tag ++ '>' :: inner ++ "</".toList ++ name ++ blanks ++ '>' :: s ++ rest =
        '<' :: tag ++ '>' :: inner ++ "</".toList ++ name ++ blanks ++ '>' :: (s ++ rest) := by simp
    rw [htext, reads_paired htag (skipping_passes w place outer depth _) ihinner hblanks, ih]

theorem reads_element {name element : List Char} (h : Element name element) (hs : s.Passes name) (rest : List Char) :
    s.reads names (element ++ rest) = s.reads names rest := by
  cases h with
  | empty htag => exact reads_empty htag hs rest
  | paired htag hinner hblanks =>
    rw [List.append_assoc, List.singleton_append]
    exact reads_paired htag hs (skipped_of_content hinner) hblanks rest

theorem reads_unread {name element : List Char} (h : Element name element) (hne : names ≠ []) (hs : s.Fits names)
    (hname : String.ofList name ∉ meanings names) (rest : List Char) :
    s.reads names (element ++ rest) = s.reads names rest := by
  cases s with
  | seeking => exact absurd hs hne
  | finished w => exact (run_finished w _).trans (run_finished w _).symm
  | skipping w place outer depth => exact reads_element h (skipping_passes w place outer depth name) rest
  | reading w place => exact reads_element h (reading_passes hs hname) rest

/-! Text that is interrupted. -/

theorem atText_split (w : Workspace) (place : List Char → Place) (text : List Char) (done : Place)
    {run more : List Char} (hrun : Closed run) (h : atText w place text done (.text (run ++ more)) = .ok s) :
    ∃ text', atText w place text done (.text run) = .ok (.reading w (place text')) ∧
      atText w place text' done (.text more) = .ok s := by
  unfold atText at h ⊢
  dsimp only at h ⊢
  cases hwhole : Xml.unescape (run ++ more) with
  | error e => rw [hwhole] at h; cases h
  | ok whole =>
    obtain ⟨first, second, hfirst, hsecond, rfl⟩ := (Xml.denotes_of_unescapeFrom hwhole).split hrun
    have hfirst : Xml.unescape run = .ok first := hfirst.unescapeFrom _ 0
    have hsecond : Xml.unescape more = .ok second := hsecond.unescapeFrom _ 0
    rw [hwhole] at h
    cases h
    rw [← List.append_assoc]
    exact ⟨text ++ first, by rw [hfirst], by rw [hsecond]⟩

/-- A run of text that is read is read in two parts alike, if no reference is cut. -/
theorem step_text_split {run more : List Char} (hrun : s.deaf = true ∨ Closed run)
    (h : s.step (.text (run ++ more)) = .ok s') :
    ∃ s₁, s.step (.text run) = .ok s₁ ∧ s₁.step (.text more) = .ok s' := by
  by_cases hdeaf : s.deaf = true
  · rw [step_text_of_deaf hdeaf] at h ⊢
    exact ⟨s, rfl, (step_text_of_deaf hdeaf more).trans h⟩
  have hclosed := hrun.resolve_left hdeaf
  cases s with
  | seeking | skipping | finished => exact absurd rfl hdeaf
  | reading w place =>
    cases place with
    | top | varList | block | input => exact absurd rfl hdeaf
    | varText found id text =>
      obtain ⟨text', hfirst, hsecond⟩ := atText_split w (.varText found id) text .top hclosed h
      exact ⟨_, hfirst, hsecond⟩
    | field outer b name id text =>
      obtain ⟨text', hfirst, hsecond⟩ := atText_split w (.field outer b name id) text .top hclosed h
      exact ⟨_, hfirst, hsecond⟩

theorem reads_split {run rest : List Char} (hin : ∀ c ∈ run, c ≠ '<') (hrun : s.deaf = true ∨ Closed run)
    {w : Workspace} (h : s.reads names (run ++ rest) = .ok w) :
    ∃ s₁, s.step (.text run) = .ok s₁ ∧ s₁.reads names rest = .ok w := by
  obtain ⟨more, rest, rfl, hmore, hrest⟩ := exists_run rest
  have hboth : ∀ c ∈ run ++ more, c ≠ '<' := fun c hc => (List.mem_append.1 hc).elim (hin c) (hmore c)
  rw [← List.append_assoc, reads_text s hboth hrest] at h
  cases hstep : s.step (.text (run ++ more)) with
  | error e => rw [hstep] at h; cases h
  | ok s₂ =>
    rw [hstep] at h
    obtain ⟨s₁, hfirst, hsecond⟩ := step_text_split hrun hstep
    exact ⟨s₁, hfirst, by rw [reads_text s₁ hmore hrest, hsecond]; exact h⟩

theorem reads_inserted {run piece rest : List Char} (hs : s.Fits names) (hin : ∀ c ∈ run, c ≠ '<')
    (hrun : s.deaf = true ∨ Closed run) (hpiece : piece.head? = some '<')
    (hpass : ∀ {s : State}, s.Fits names → s.reads names (piece ++ rest) = s.reads names rest) {w : Workspace}
    (h : s.reads names (run ++ rest) = .ok w) : s.reads names (run ++ (piece ++ rest)) = .ok w := by
  obtain ⟨s₁, hstep, hrest⟩ := reads_split hin hrun h
  have hhead : ∀ c ∈ (piece ++ rest).head?, c = '<' := fun c hc => by
    rw [List.head?_append, hpiece] at hc
    exact (Option.some.inj hc).symm
  rw [reads_text s hin hhead, hstep]
  exact (hpass (step_fits hs hstep)).trans hrest

/-! Content that may be inserted. -/

/-- What is foreign at a place of a document between some open elements, behind a run of text. Text and character data
are foreign outside of fields and variables; comments, instructions and elements that are not read are so everywhere,
but not within a reference. -/
inductive Foreign (names : List (List Char)) (run : List Char) : List Char → Prop
  | text {s : List Char} : isText names = false → (∀ c ∈ s, c ≠ '<') → Foreign names run s
  | aside {e : Event} {a : List Char} : Aside e a → isText names = false ∨ e = .other ∧ Closed run →
    Foreign names run a
  | element {name s : List Char} : Element name s → String.ofList name ∉ meanings names →
    isText names = false ∨ Closed run → Foreign names run s

end Import

namespace Workspace

open Import

/-- What is foreign at a place inside the root of a document that is accepted leaves what is read there as it is. -/
theorem ofXml_inserted {before : String} {names : List (List Char)} {run : List Char}
    (place : Before before.toList names run) (hne : names ≠ []) {inserted : String}
    (hforeign : Foreign names run inserted.toList) {after : String} {w : Workspace}
    (hread : ofXml (before ++ after) = .ok w) : ofXml (before ++ inserted ++ after) = .ok w := by
  rw [String.append_assoc]
  rcases ofXml_place place with ⟨r, hr⟩ | ⟨s, hs, hreads⟩
  · rwa [hr, ← hr after]
  have hin := place.ne_of_mem_run
  have hdeaf := deaf_of_fits (s := s) hs
  rw [hreads] at hread ⊢
  rw [String.toList_append]
  cases hforeign with
  | text htext hplain =>
    rw [reads_of_deaf (hdeaf htext) hin] at hread ⊢
    rwa [reads_of_deaf (hdeaf htext) hplain]
  | aside ha hwhere =>
    refine reads_inserted hs hin (hwhere.imp hdeaf And.right) ha.head? (fun hfits => ?_) hread
    exact reads_aside ha (step_aside ha (hwhere.imp (deaf_of_fits hfits) And.left)) _
  | element helement hname hwhere =>
    refine reads_inserted hs hin (hwhere.imp hdeaf id) helement.head? (fun hfits => ?_) hread
    exact reads_unread helement hne hfits hname _

/-- The head of a document, as far as into the text of a field. -/
def openField : String := "<xml><block type=\"math_number\" id=\"n\"><field name=\"NUM\">1"

theorem before_openField : Before openField.toList ["field".toList, "block".toList, "xml".toList] ['1'] := by
  have hroot : Event.markup [] "xml>".toList = .ok (.startTag ⟨"xml".toList⟩, ["xml".toList], []) := by
    decide +kernel
  have hblock : Event.markup [] "block type=\"math_number\" id=\"n\">".toList =
      .ok (.startTag ⟨"block type=\"math_number\" id=\"n\"".toList⟩, ["block".toList], []) := by
    decide +kernel
  have hfield : Event.markup [] "field name=\"NUM\">".toList =
      .ok (.startTag ⟨"field name=\"NUM\"".toList⟩, ["field".toList], []) := by
    decide +kernel
  exact (((Before.start.markup hroot).markup hblock).markup hfield).char (by decide)

theorem element_note :
    Element "note".toList "<note lang='&#x41;'>of<note/><block></block></note >".toList := by
  have hnote : IsName "note".toList := by decide +kernel
  have hblock : IsName "block".toList := by decide +kernel
  have hlang : IsName "lang".toList := by decide +kernel
  have hnone : Blank [] := by decide
  have hone : Blank [' '] := by decide
  have hvalue : Referring "&#x41;".toList :=
    .reference (@Xml.IsReference.hexadecimal "41".toList ⟨0x41, by decide, by decide, by decide⟩) .nil
  have hquote : '\'' ∉ "&#x41;".toList := by decide
  have hattributes : AttributeList [] " lang='&#x41;'".toList :=
    .entry (by decide) hone hlang (by decide) hnone hnone (.inr rfl) (fun _ hc h => hquote (h ▸ hc)) hvalue
      (.blank hnone)
  have hblocks : Content "<block></block>".toList := .paired (.mk hblock (.blank hnone)) .nil hnone .nil
  have hinner : Content "of<note/><block></block>".toList :=
    .char (by decide) (.char (by decide) (.empty (.mk hnote (.blank hnone)) hblocks))
  exact .paired (.mk hnote hattributes) hinner hone

/-- The number twelve is read, although an element stands between its digits. -/
theorem openField_inserted : ∃ w, ofXml (openField ++ "2</field></block></xml>") = .ok w ∧
    ofXml (openField ++ "<note lang='&#x41;'>of<note/><block></block></note >" ++ "2</field></block></xml>") = .ok w ∧
      w.stackList.flatten.map (·.field? "NUM") = [some "12"] := by
  have hclosed : Closed ['1'] := fun before after h => by
    have hmem : '&' ∈ ['1'] := h ▸ by simp
    exact absurd hmem (by decide)
  have hnumber : (ofXml (openField ++ "2</field></block></xml>")).toOption.map
      (fun w => w.stackList.flatten.map (·.field? "NUM")) = some [some "12"] := by decide +kernel
  cases hread : ofXml (openField ++ "2</field></block></xml>") with
  | error e =>
    rw [hread] at hnumber
    cases hnumber
  | ok w =>
    rw [hread] at hnumber
    exact ⟨w, rfl, ofXml_inserted before_openField (by decide)
      (.element element_note (by decide +kernel) (.inr hclosed)) hread, Option.some.inj hnumber⟩

end Workspace

end ScopeBlocks
