import ScopeBlocks.Proofs.Workspace.Saving
import ScopeBlocks.Proofs.Xml.Prefixes

/-! Documents that are cut. Reading ends with the event that closes the root element and looks at nothing
after it. A document that is cut anywhere lacks that event: the events before the cut are those of the whole
document, and none of them leaves the root element. -/
namespace ScopeBlocks

open Xml (Event Node)

namespace Import

/-- How many elements are open around a place. -/
def Place.level : Place → Int
  | .top => 1
  | .varList _ => 2
  | .varText .. => 3
  | .block outer _ => 2 * outer.length + 2
  | .field outer .. => 2 * outer.length + 3
  | .input outer .. => 2 * outer.length + 3

def State.level : State → Int
  | .seeking | .finished _ => 0
  | .reading _ place => place.level
  | .skipping _ place _ depth => place.level + depth + 1

def State.inside : State → Bool
  | .reading .. | .skipping .. => true
  | .seeking | .finished _ => false

/-- Within the root element or at its end, with so many elements open. -/
def State.Stands (level : Int) (s : State) : Prop :=
  s.level = level ∧ (s.inside = true ∨ ∃ w, s = .finished w)

theorem finish_stands (w : Workspace) (outer : Path) (b : OpenBlock) :
    (finish w outer b).Stands (2 * outer.length + 1) := by
  cases outer with
  | nil => exact ⟨rfl, .inl rfl⟩
  | cons c outer =>
    refine ⟨?_, .inl rfl⟩
    simp only [finish, State.level, Place.level, List.length_cons]
    omega

variable {w w' : Workspace} {e : Event} {s s' : State}

/-- What a step that may fail comes to, if it does not. -/
def Comes (level : Int) (r : Except ImportError State) : Prop := ∀ s, r = .ok s → s.Stands level

theorem comes_ok {level : Int} (h : s.Stands level) : Comes level (.ok s) := by
  rintro _ ⟨⟩
  exact h

theorem comes_bind {α : Type} {level : Int} {r : Except ImportError α}
    {f : α → Except ImportError State} (h : ∀ a, Comes level (f a)) : Comes level (r >>= f) := by
  cases r with
  | error e => rintro _ ⟨⟩
  | ok a => exact h a

theorem comes_reading (place : Place) : Comes place.level (.ok (.reading w place)) :=
  comes_ok ⟨rfl, .inl rfl⟩

theorem comes_skipping (place : Place) (name : String) :
    Comes (place.level + 1) (.ok (.skipping w place name 0)) :=
  comes_ok ⟨by simp [State.level], .inl rfl⟩

theorem comes_still {level : Int} {r : Except ImportError State} (h : Comes level r)
    (he : e.rise = 0) : Comes (level + e.rise) r := by
  rwa [he, Int.add_zero]

theorem atTop_comes (w : Workspace) (e : Event) : Comes (1 + e.rise) (atTop w e) := by
  cases e with
  | startTag t =>
    unfold atTop
    dsimp only
    split
    · exact comes_reading _
    · exact comes_bind fun _ => comes_reading _
    · exact comes_skipping _ _
  | emptyTag t =>
    unfold atTop
    dsimp only
    split
    · exact comes_bind fun _ => comes_ok (finish_stands w [] _)
    · exact comes_reading _
  | endTag => exact comes_ok ⟨rfl, .inr ⟨w, rfl⟩⟩
  | text | cdata | other | eof | failure => exact comes_reading _

theorem atVariables_comes (w : Workspace) (found : List Variable) (e : Event) :
    Comes (2 + e.rise) (atVariables w found e) := by
  cases e with
  | startTag t =>
    unfold atVariables
    dsimp only
    split
    · exact comes_bind fun _ => comes_reading _
    · exact comes_skipping _ _
  | emptyTag t =>
    unfold atVariables
    dsimp only
    split
    · exact comes_bind fun _ => comes_reading _
    · exact comes_reading _
  | endTag | text | cdata | other | eof | failure => exact comes_reading _

theorem atText_comes (w : Workspace) (place : List Char → Place) (text : List Char) (done : Place)
    {level : Int} (hplace : ∀ text, (place text).level = level + 1) (hdone : done.level = level)
    (e : Event) : Comes (level + 1 + e.rise) (atText w place text done e) := by
  have hstays (text : List Char) : Comes (level + 1) (.ok (.reading w (place text))) :=
    hplace text ▸ comes_reading _
  cases e with
  | text run =>
    refine comes_still ?_ rfl
    unfold atText
    dsimp only
    split
    · exact hstays _
    · rintro _ ⟨⟩
  | startTag t =>
    rw [← hplace text]
    exact comes_skipping _ _
  | endTag =>
    rw [show level + 1 + Event.endTag.rise = done.level by simp only [Event.rise]; omega]
    exact comes_reading _
  | cdata | emptyTag | other | eof | failure => exact comes_still (hstays _) rfl

theorem atBlock_comes (w : Workspace) (outer : Path) (b : OpenBlock) (e : Event) :
    Comes (2 * outer.length + 2 + e.rise) (atBlock w outer b e) := by
  have hstays (b : OpenBlock) :
      Comes (2 * outer.length + 2) (.ok (.reading w (.block outer b))) := comes_reading _
  cases e with
  | startTag t =>
    unfold atBlock
    refine comes_bind fun a => ?_
    dsimp only
    split
    · exact comes_skipping _ _
    · exact comes_reading (.field outer b _ _ _)
    · exact comes_reading (.input outer b _)
    · exact comes_reading (.input outer b _)
    · exact comes_reading (.input outer b _)
    · exact comes_skipping _ _
  | emptyTag t =>
    refine comes_still ?_ rfl
    unfold atBlock
    refine comes_bind fun a => ?_
    split <;> exact hstays _
  | endTag =>
    rw [show (2 * outer.length + 2 + Event.endTag.rise : Int) = 2 * outer.length + 1 by
      simp only [Event.rise]; omega]
    exact comes_ok (finish_stands w outer b)
  | text | cdata | other | eof | failure => exact comes_still (hstays b) rfl

theorem atInput_comes (w : Workspace) (outer : Path) (b : OpenBlock) (i : OpenInput) (e : Event) :
    Comes (2 * outer.length + 3 + e.rise) (atInput w outer b i e) := by
  have hstays : Comes (2 * outer.length + 3) (.ok (.reading w (.input outer b i))) := comes_reading _
  have hlevel : (2 * outer.length + 3 : Int) = 2 * ((b, i) :: outer).length + 1 := by
    simp only [List.length_cons]
    omega
  have hwhole (c : OpenBlock) : Comes (2 * outer.length + 3) (.ok (finish w ((b, i) :: outer) c)) := by
    rw [hlevel]
    exact comes_ok (finish_stands w ((b, i) :: outer) c)
  have hopens (c : OpenBlock) :
      Comes (2 * outer.length + 3 + 1) (.ok (.reading w (.block ((b, i) :: outer) c))) := by
    rw [hlevel, Int.add_assoc]
    exact comes_reading _
  cases e with
  | startTag t =>
    unfold atInput
    dsimp only
    split
    · exact comes_bind fun _ => hopens _
    · exact comes_bind fun _ => hopens _
    · exact comes_skipping _ _
  | emptyTag t =>
    refine comes_still ?_ rfl
    unfold atInput
    dsimp only
    split
    · exact comes_bind fun _ => hwhole _
    · exact comes_bind fun _ => hwhole _
    · exact hstays
  | endTag =>
    rw [show (2 * outer.length + 3 + Event.endTag.rise : Int) = 2 * outer.length + 2 by
      simp only [Event.rise]; omega]
    exact comes_reading (.block outer (b.receive i))
  | text | cdata | other | eof | failure => exact comes_still hstays rfl

theorem skipping_stands (w : Workspace) (place : Place) (name : String) (depth : Nat) (e : Event) :
    (atSkipping w place name depth e).Stands (place.level + depth + 1 + e.rise) := by
  cases e with
  | endTag =>
    cases depth with
    | zero => exact ⟨by simp [atSkipping, State.level, Event.rise], .inl rfl⟩
    | succ depth =>
      refine ⟨?_, .inl rfl⟩
      simp only [atSkipping, State.level, Event.rise]
      omega
  | startTag =>
    refine ⟨?_, .inl rfl⟩
    simp only [atSkipping, State.level, Event.rise]
    omega
  | text | cdata | other | eof | failure | emptyTag =>
    exact ⟨by simp [atSkipping, State.level, Event.rise], .inl rfl⟩

/-- Each event opens an element, closes one or leaves the number of open ones as it is. -/
theorem step_stands (hinside : s.inside = true) (hstep : s.step e = .ok s') :
    s'.Stands (s.level + e.rise) := by
  cases s with
  | seeking | finished => cases hinside
  | skipping w place name depth =>
    have hskip := skipping_stands w place name depth e
    cases e with
    | eof | failure => cases hstep
    | startTag | emptyTag | endTag | text | cdata | other =>
      cases hstep
      exact hskip
  | reading w place =>
    have hplace : Comes (place.level + e.rise) (place.step w e) := by
      cases place with
      | top => exact atTop_comes w e
      | varList found => exact atVariables_comes w found e
      | varText found id text => exact atText_comes w (.varText found id) text _ (fun _ => rfl) rfl e
      | block outer b => exact atBlock_comes w outer b e
      | field outer b name id text =>
        exact atText_comes w (.field outer b name id) text (.block outer _)
          (fun _ => by simp only [Place.level]; omega) rfl e
      | input outer b i => exact atInput_comes w outer b i e
    cases e with
    | eof | failure => cases hstep
    | startTag | emptyTag | endTag | text | cdata | other => exact hplace s' hstep

theorem level_pos (h : s.inside = true) : 0 < s.level := by
  have hplace (place : Place) : 0 < place.level := by
    cases place <;> simp only [Place.level] <;> omega
  cases s with
  | seeking | finished => cases h
  | reading w place => exact hplace place
  | skipping w place name depth =>
    have hpos := hplace place
    simp only [State.level]
    omega

/-- The events that take a state that is not finished to another one, up to the first that is. -/
inductive Reads : State → List Event → State → Prop
  | refl (s : State) : Reads s [] s
  | cons {s s₁ s₂ : State} {e : Event} {es : List Event} (going : ∀ w, s ≠ .finished w)
      (step : s.step e = .ok s₁) (rest : Reads s₁ es s₂) : Reads s (e :: es) s₂

theorem Reads.level {es : List Event} (h : Reads s es s') (hinside : s.inside = true) :
    s'.level = s.level + Event.climb es := by
  induction h with
  | refl s => simp
  | cons going step rest ih =>
    obtain ⟨hlevel, hstands⟩ := step_stands hinside step
    rw [Event.climb_cons]
    rcases hstands with hinside | ⟨w, rfl⟩
    · rw [ih hinside, hlevel, Int.add_assoc]
    · -- a finished state reads nothing more
      cases rest with
      | refl => rw [hlevel, Event.climb_nil, Int.add_zero]
      | cons going => exact absurd rfl (going w)

theorem Reads.no_end {es : List Event} (h : Reads s es s') : Event.eof ∉ es := by
  induction h with
  | refl => exact List.not_mem_nil
  | cons going step rest ih =>
    intro hmem
    rcases List.mem_cons.1 hmem with rfl | hmem
    · cases step
    · exact ih hmem

theorem run_cons (going : ∀ w, s ≠ .finished w) (e : Event) (es : List Event) :
    s.run (e :: es) = s.step e >>= fun s => s.run es := by
  cases s with
  | finished w => exact absurd rfl (going w)
  | seeking | reading | skipping => rfl

theorem step_text (going : ∀ w, s ≠ .finished w) {run : List Char} (h : s.step (.text run) = .ok s') :
    ∀ w, s' ≠ .finished w := by
  rintro w rfl
  cases hinside : s.inside with
  | true =>
    have hlevel : 0 = s.level + 0 := (step_stands hinside h).1
    have hpos := level_pos hinside
    omega
  | false =>
    cases s with
    | seeking => cases h
    | finished w => exact going w rfl
    | reading | skipping => cases hinside

/-- A document that is read to its end is read in the same way, whatever stands behind its last event. -/
theorem reads_of_run (s : State) {document : Workspace} (opened : List (List Char)) (text : List Char)
    (h : s.run (Event.scanFrom opened text) = .ok document) :
    ∃ es opened' rest, Reads s es (.finished document) ∧ ∀ more,
      Event.scanFrom opened (text ++ more) = es ++ Event.scanFrom opened' (rest ++ more) := by
  by_cases hfinished : ∃ w, s = .finished w
  · obtain ⟨w, rfl⟩ := hfinished
    have hsame : w = document := by
      cases hevents : Event.scanFrom opened text with
      | nil | cons =>
        rw [hevents] at h
        cases h
        rfl
    subst hsame
    exact ⟨[], opened, text, .refl _, fun _ => rfl⟩
  · have going : ∀ w, s ≠ .finished w := fun w hw => hfinished ⟨w, hw⟩
    by_cases hne : text = []
    · rw [hne, Event.scanFrom, run_cons going] at h
      cases h
    rcases Event.scanFrom_cases opened hne with ⟨cause, hs⟩ | ⟨run, hs⟩ | ⟨e, opened', rest, hshorter, hs⟩
    · rw [hs, run_cons going] at h
      cases h
    -- text at the end finishes nothing, so a document cannot end with it
    · rw [hs, run_cons going] at h
      cases hstep : s.step (.text run) with
      | error e =>
        rw [hstep] at h
        cases h
      | ok s₁ =>
        rw [hstep] at h
        change s₁.run [.eof] = _ at h
        rw [run_cons (step_text going hstep)] at h
        cases h
    · have hhere := hs []
      rw [List.append_nil, List.append_nil] at hhere
      rw [hhere, run_cons going] at h
      cases hstep : s.step e with
      | error e =>
        rw [hstep] at h
        cases h
      | ok s₁ =>
        rw [hstep] at h
        obtain ⟨es, opened'', rest', hreads, hmore⟩ := reads_of_run s₁ opened' rest h
        exact ⟨e :: es, opened'', rest', .cons going hstep hreads, fun more => by
          rw [hs, hmore, List.cons_append]⟩
termination_by text.length

theorem Reads.whole {document : Workspace} {es tail : List Event} {name : String}
    {attributes : List (String × String)} {children : List Node}
    (h : Reads .seeking es (.finished document))
    (hes : es ++ tail = (Node.element name attributes children).events 0 ++ [.eof]) :
    es = (Node.element name attributes children).events 0 := by
  have hpart : es <+: (Node.element name attributes children).events 0 := by
    rcases List.prefix_concat_iff.1 ⟨tail, hes⟩ with rfl | hpart
    · exact absurd (List.mem_append_right _ List.mem_cons_self) h.no_end
    · exact hpart
  rw [Node.events_element] at hpart ⊢
  cases h with
  | @cons _ s₁ _ e es going step rest =>
    obtain ⟨more, hmore⟩ := hpart
    obtain ⟨rfl, -⟩ := List.cons.inj hmore
    have hroot : s₁ = .reading .empty .top := by
      simp only [State.step, atSeeking] at step
      split at step
      · cases step
        rfl
      · cases step
    subst hroot
    have hlevel : 0 = 1 + Event.climb es := rest.level rfl
    rcases (Node.level_content 0 children).open ⟨more, hmore⟩ with hnil | hpos | hwhole
    · cases hnil
    · rw [Event.climb_cons, show Event.rise (.startTag _) = 1 from rfl] at hpos
      omega
    · exact hwhole

end Import

namespace Workspace

open Import (State Place Reads reads_of_run)

theorem chars_head (n : Node) : n.chars.head? = some '<' := by
  obtain ⟨s, hs⟩ := Node.exists_continued 0 n
  have hchars : '\n' :: n.chars = '\n' :: '<' :: s :=
    (Node.cons_intercalate (Node.lines_ne_nil 0 n)).trans hs
  rw [(List.cons.inj hchars).2, List.head?_cons]

theorem scan_part {part rest document : List Char} (h : part ++ rest = document)
    (hdocument : document.head? = some '<') : Event.scan part = Event.scanFrom [] part := by
  cases part with
  | nil => rfl
  | cons c part =>
    rw [← h, List.cons_append, List.head?_cons] at hdocument
    cases hdocument
    rfl

/-- A saved workspace that is cut somewhere is not loaded, as less of itself or as anything else: what was
cut off, be it a single character, is missed. -/
theorem ofXml_truncated {w : Workspace} (h : ∀ b ∈ w.blocks, b.Attributable) {part rest : String}
    (cut : w.toXml = part ++ rest) (hne : rest ≠ "") : ∃ e : ImportError, ofXml part = .error e := by
  cases hread : ofXml part with
  | error e => exact ⟨e, rfl⟩
  | ok document =>
    exfalso
    have hchars : part.toList ++ rest.toList = w.node.chars := by
      rw [← String.toList_append, ← cut, toXml, String.toList_ofList]
    have hscan := Node.scan_chars (proper_document h)
    rw [scan_part (List.append_nil _) (chars_head _), ← hchars] at hscan
    rw [ofXml, scan_part hchars (chars_head _)] at hread
    obtain ⟨es, opened, left, hreads, hmore⟩ := reads_of_run .seeking [] part.toList hread
    rw [hmore] at hscan
    have hwhole : es = w.node.events 0 := hreads.whole hscan
    rw [hwhole] at hscan
    refine Event.scanFrom_ne_eof opened ?_ (List.append_cancel_left hscan)
    simpa using fun _ => hne

/-- A document of 662 characters without its last six, which are the end tag of the root. -/
theorem shadowedLoop_truncated :
    ((∀ b ∈ shadowedLoop.blocks, b.Attributable) ∧ shadowedLoop.node.chars.drop 656 = "</xml>".toList) ∧
      ∃ e : ImportError, ofXml (String.ofList (shadowedLoop.node.chars.take 656)) = .error e := by
  have hstorable : ∀ b ∈ shadowedLoop.blocks, b.Storable := by decide +kernel
  have hattributable : ∀ b ∈ shadowedLoop.blocks, b.Attributable := fun b hb =>
    (hstorable b hb).kept.attributable
  have hrest : shadowedLoop.node.chars.drop 656 = "</xml>".toList := by decide +kernel
  have hcut : shadowedLoop.toXml = String.ofList (shadowedLoop.node.chars.take 656) ++ "</xml>" := by
    rw [← String.ofList_toList (s := "</xml>"), ← hrest, ← String.ofList_append, List.take_append_drop, toXml]
  exact ⟨⟨hattributable, hrest⟩, ofXml_truncated hattributable hcut (by decide)⟩

end Workspace

end ScopeBlocks
