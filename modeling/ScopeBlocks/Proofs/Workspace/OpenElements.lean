import ScopeBlocks.Proofs.Workspace.Truncated
import ScopeBlocks.Proofs.Xml.Places

/-! The reader at a place of a document. The elements that are open there say where it stands: in the root, in the
list of variables, in a block, in an input or in a text, or somewhere in an element that it passes over. -/
namespace ScopeBlocks

namespace Import

open Xml (Event Tag Before)

variable {names : List (List Char)} {s s' : State} {e : Event}

/-- What a state comes to with a text that stands in some open elements. -/
def State.reads (s : State) (names : List (List Char)) (text : List Char) : Except ImportError Workspace :=
  s.run (Event.scanFrom names text)

/-! Reading piece by piece. -/

theorem run_finished (w : Workspace) (es : List Event) : (State.finished w).run es = .ok w := by
  cases es <;> rfl

theorem run_piece (s : State) (h : e.isPiece = true) (es : List Event) :
    s.run (e :: es) = s.step e >>= fun s => s.run es := by
  by_cases hfinished : ∃ w, s = .finished w
  · obtain ⟨w, rfl⟩ := hfinished
    have hstep : (State.finished w).step e = .ok (.finished w) := by
      cases e with
      | eof | failure => cases h
      | startTag | emptyTag | endTag | text | cdata | other => rfl
    rw [hstep, run_finished]
    exact (run_finished w es).symm
  · exact run_cons (fun w hw => hfinished ⟨w, hw⟩) e es

theorem reads_markup (s : State) {piece rest : List Char} {o : List (List Char)}
    (h : Event.markup names piece = .ok (e, o, rest)) :
    s.reads names ('<' :: piece) = s.step e >>= fun s => s.reads o rest := by
  rw [State.reads, Event.scanFrom_markup h, run_piece s (Event.markup_cases h).2.1]
  rfl

theorem step_text_nil (s : State) : s.step (.text []) = .ok s := by
  have hnone : Xml.unescape [] = .ok [] := by
    rw [Xml.unescape, Xml.unescapeFrom]
  cases s with
  | seeking | skipping | finished => rfl
  | reading w place =>
    cases place with
    | top | varList | block | input => rfl
    | varText | field => simp [State.step, Place.step, atText, hnone]

theorem reads_text (s : State) {run rest : List Char} (hrun : ∀ c ∈ run, c ≠ '<')
    (hrest : ∀ c ∈ rest.head?, c = '<') :
    s.reads names (run ++ rest) = s.step (.text run) >>= fun s => s.reads names rest := by
  cases run with
  | nil =>
    rw [step_text_nil]
    rfl
  | cons c run =>
    rw [State.reads, Event.scanFrom_run hrun hrest, run_piece s rfl]
    rfl

def State.deaf : State → Bool
  | .reading _ (.varText ..) | .reading _ (.field ..) => false
  | _ => true

theorem step_text_of_deaf (h : s.deaf = true) (run : List Char) : s.step (.text run) = .ok s := by
  cases s with
  | seeking | skipping | finished => rfl
  | reading w place =>
    cases place with
    | top | varList | block | input => rfl
    | varText | field => cases h

theorem exists_run (text : List Char) : ∃ run rest, text = run ++ rest ∧ (∀ c ∈ run, c ≠ '<') ∧
    ∀ c ∈ rest.head?, c = '<' := by
  refine ⟨_, _, (List.takeWhile_append_dropWhile (p := Event.inText)).symm, fun c hc => ?_, fun c hc => ?_⟩
  · simpa [Event.inText] using List.all_eq_true.1 List.all_takeWhile c hc
  · have hnot := List.head?_dropWhile_not Event.inText text
    rw [Option.mem_def.1 hc] at hnot
    simpa [Event.inText] using hnot

theorem reads_of_deaf (h : s.deaf = true) {run : List Char} (hrun : ∀ c ∈ run, c ≠ '<') (rest : List Char) :
    s.reads names (run ++ rest) = s.reads names rest := by
  obtain ⟨more, rest, rfl, hmore, hrest⟩ := exists_run rest
  have hboth : ∀ c ∈ run ++ more, c ≠ '<' := fun c hc => (List.mem_append.1 hc).elim (hrun c) (hmore c)
  rw [← List.append_assoc, reads_text s hboth hrest, reads_text s hmore hrest, step_text_of_deaf h,
    step_text_of_deaf h]

theorem ofXml_eq_reads (document : String) :
    Workspace.ofXml document = State.seeking.reads [] document.toList := by
  unfold Workspace.ofXml Event.scan
  split
  next rest heq =>
    rw [heq]
    have hmark : ∀ c ∈ ['\uFEFF'], c ≠ '<' := List.forall_mem_singleton.2 (by decide)
    exact (reads_of_deaf rfl hmark rest).symm
  next => rfl

/-! Open elements. -/

def roleNames : List String := ["block", "shadow"]

def slotNames : List String := ["value", "statement", "next"]

/-- Whether some elements are a block and those around it: the root, or an input of a block that stands so itself. -/
def Path.Fits : Path → List (List Char) → Prop
  | [], names => names = ["block".toList, "xml".toList]
  | _ :: outer, names => ∃ role ∈ roleNames, ∃ slot ∈ slotNames, ∃ inside,
      names = role.toList :: slot.toList :: inside ∧ Fits outer inside

def isBlock : List (List Char) → Bool
  | role :: slot :: inside => role :: slot :: inside == ["block".toList, "xml".toList] ||
      roleNames.contains (String.ofList role) && slotNames.contains (String.ofList slot) && isBlock inside
  | _ => false

theorem isBlock_of_fits {outer : Path} (h : outer.Fits names) : isBlock names = true := by
  induction outer generalizing names with
  | nil =>
    obtain rfl : names = _ := h
    rfl
  | cons c outer ih =>
    obtain ⟨role, hrole, slot, hslot, inside, rfl, houter⟩ := h
    simp [isBlock, hrole, hslot, ih houter]

theorem isBlock_eq_false {first : String} {inside : List (List Char)} (h : first ∉ roleNames) :
    isBlock (first.toList :: inside) = false := by
  have hblock : first.toList ≠ "block".toList := fun heq =>
    h (String.toList_inj.1 heq ▸ List.mem_cons_self)
  cases inside with
  | nil => rfl
  | cons slot inside =>
    have hnot : roleNames.contains first = false := by simpa using h
    rw [isBlock, String.ofList_toList, hnot, beq_false_of_ne fun heq => hblock (List.cons.inj heq).1]
    rfl

/-- Whether some elements are those that are open at a place of the reader. -/
def Place.Fits : Place → List (List Char) → Prop
  | .top, names => names = ["xml".toList]
  | .varList _, names => names = ["variables".toList, "xml".toList]
  | .varText .., names => names = ["variable".toList, "variables".toList, "xml".toList]
  | .block outer _, names => outer.Fits names
  | .field outer .., names => ∃ inside, names = "field".toList :: inside ∧ outer.Fits inside
  | .input outer .., names => ∃ slot ∈ slotNames, ∃ inside, names = slot.toList :: inside ∧ outer.Fits inside

def State.Fits : State → List (List Char) → Prop
  | .seeking, names => names = []
  | .reading _ place, names => place.Fits names
  | .skipping _ place _ depth, names => ∃ inner outer, names = inner ++ outer ∧ inner.length = depth + 1 ∧
      place.Fits outer
  | .finished _, _ => True

/-- What a step that may fail comes to, if it does not, where some elements are open. -/
def Fitting (names : List (List Char)) (r : Except ImportError State) : Prop := ∀ s, r = .ok s → s.Fits names

theorem fitting_ok (h : s.Fits names) : Fitting names (.ok s) := by
  rintro _ ⟨⟩
  exact h

theorem fitting_bind {α : Type} {r : Except ImportError α} {f : α → Except ImportError State}
    (h : ∀ a, Fitting names (f a)) : Fitting names (r >>= f) := by
  cases r with
  | error e => rintro _ ⟨⟩
  | ok a => exact h a

theorem finish_fits (w : Workspace) {outer : Path} (b : OpenBlock) (h : (around outer).Fits names) :
    (finish w outer b).Fits names := by
  cases outer with
  | nil => exact h
  | cons c outer => exact h

theorem Path.Fits.around {outer : Path} (h : outer.Fits names) : (around outer).Fits names.tail := by
  cases outer with
  | nil =>
    obtain rfl : names = _ := h
    rfl
  | cons c outer =>
    obtain ⟨role, -, slot, hslot, inside, rfl, houter⟩ := h
    exact ⟨slot, hslot, inside, rfl, houter⟩

theorem nameChars_of_name {t : Tag} {name : String} (h : t.name = name) : t.nameChars = name.toList := by
  rw [← h, Tag.name, String.toList_ofList]

section

variable (w : Workspace)

theorem fitting_skipping {place : Place} (h : place.Fits names) (t : Tag) (name : String) :
    Fitting (t.nameChars :: names) (.ok (.skipping w place name 0)) :=
  fitting_ok ⟨[t.nameChars], names, rfl, rfl, h⟩

theorem atTop_fitting (h : Place.top.Fits names) (e : Event) : Fitting (e.nest names) (atTop w e) := by
  have hnames : names = ["xml".toList] := h
  cases e with
  | startTag t =>
    unfold atTop
    dsimp only
    split
    next hname => exact fitting_ok (by rw [Event.nest, nameChars_of_name hname, hnames]; rfl)
    next hname =>
      refine fitting_bind fun b => fitting_ok ?_
      rw [Event.nest, nameChars_of_name hname, hnames]
      rfl
    next => exact fitting_skipping w h t _
  | emptyTag t =>
    unfold atTop
    dsimp only
    split
    · exact fitting_bind fun b => fitting_ok (finish_fits w b h)
    · exact fitting_ok h
  | endTag => exact fitting_ok trivial
  | text | cdata | other | eof | failure => exact fitting_ok h

theorem atVariables_fitting {found : List Variable} (h : (Place.varList found).Fits names) (e : Event) :
    Fitting (e.nest names) (atVariables w found e) := by
  have hnames : names = ["variables".toList, "xml".toList] := h
  cases e with
  | startTag t =>
    unfold atVariables
    dsimp only
    split
    next hname =>
      refine fitting_bind fun a => fitting_ok ?_
      rw [Event.nest, nameChars_of_name hname, hnames]
      rfl
    next => exact fitting_skipping w h t _
  | emptyTag t =>
    unfold atVariables
    dsimp only
    split
    · exact fitting_bind fun a => fitting_ok h
    · exact fitting_ok h
  | endTag =>
    rw [hnames]
    exact fitting_ok rfl
  | text | cdata | other | eof | failure => exact fitting_ok h

theorem atText_fitting (place : List Char → Place) (text : List Char) {done : Place}
    (h : ∀ text, (place text).Fits names) (hdone : done.Fits names.tail) (e : Event) :
    Fitting (e.nest names) (atText w place text done e) := by
  cases e with
  | text run =>
    unfold atText
    dsimp only
    split
    · exact fitting_ok (h _)
    · rintro _ ⟨⟩
  | startTag t => exact fitting_skipping w (h text) t _
  | endTag => exact fitting_ok hdone
  | cdata | emptyTag | other | eof | failure => exact fitting_ok (h _)

theorem atBlock_fitting {outer : Path} {b : OpenBlock} (h : (Place.block outer b).Fits names) (e : Event) :
    Fitting (e.nest names) (atBlock w outer b e) := by
  have hinput (i : OpenInput) {t : Tag} (hslot : t.name ∈ slotNames) :
      (State.reading w (.input outer b i)).Fits (t.nameChars :: names) :=
    ⟨t.name, hslot, names, by rw [← nameChars_of_name rfl], h⟩
  cases e with
  | startTag t =>
    unfold atBlock
    refine fitting_bind fun a => ?_
    dsimp only
    split
    next => exact fitting_skipping w (show (Place.block outer (b.mutate a)).Fits _ from h) t _
    next hname => exact fitting_ok ⟨names, by rw [Event.nest, nameChars_of_name hname], h⟩
    next hname => exact fitting_ok (hinput _ (by rw [hname]; decide))
    next hname => exact fitting_ok (hinput _ (by rw [hname]; decide))
    next hname => exact fitting_ok (hinput _ (by rw [hname]; decide))
    next => exact fitting_skipping w h t _
  | emptyTag t =>
    unfold atBlock
    refine fitting_bind fun a => ?_
    split <;> exact fitting_ok h
  | endTag => exact fitting_ok (finish_fits w b h.around)
  | text | cdata | other | eof | failure => exact fitting_ok h

theorem atInput_fitting {outer : Path} {b : OpenBlock} {i : OpenInput} (h : (Place.input outer b i).Fits names)
    (e : Event) : Fitting (e.nest names) (atInput w outer b i e) := by
  have hopens (c : OpenBlock) {t : Tag} (hrole : t.name ∈ roleNames) :
      (State.reading w (.block ((b, i) :: outer) c)).Fits (t.nameChars :: names) := by
    obtain ⟨slot, hslot, inside, rfl, houter⟩ := h
    exact ⟨t.name, hrole, slot, hslot, inside, by rw [← nameChars_of_name rfl], houter⟩
  cases e with
  | startTag t =>
    unfold atInput
    dsimp only
    split
    next hname => exact fitting_bind fun c => fitting_ok (hopens c (by rw [hname]; decide))
    next hname => exact fitting_bind fun c => fitting_ok (hopens c (by rw [hname]; decide))
    next => exact fitting_skipping w h t _
  | emptyTag t =>
    unfold atInput
    dsimp only
    split
    · exact fitting_bind fun c => fitting_ok (finish_fits w c h)
    · exact fitting_bind fun c => fitting_ok (finish_fits w c h)
    · exact fitting_ok h
  | endTag =>
    obtain ⟨slot, -, inside, rfl, houter⟩ := h
    exact fitting_ok houter
  | text | cdata | other | eof | failure => exact fitting_ok h

theorem skipping_fits {place : Place} {name : String} {depth : Nat}
    (h : (State.skipping w place name depth).Fits names) (e : Event) :
    (atSkipping w place name depth e).Fits (e.nest names) := by
  obtain ⟨inner, outer, rfl, hlength, hplace⟩ := id h
  cases e with
  | startTag t => exact ⟨t.nameChars :: inner, outer, rfl, congrArg (· + 1) hlength, hplace⟩
  | endTag =>
    obtain ⟨name', inner, rfl⟩ := List.exists_cons_of_length_eq_add_one hlength
    have hinner : inner.length = depth := Nat.succ.inj hlength
    cases depth with
    | zero =>
      obtain rfl := List.eq_nil_of_length_eq_zero hinner
      exact hplace
    | succ depth => exact ⟨inner, outer, rfl, hinner, hplace⟩
  | emptyTag | text | cdata | other | eof | failure => exact h

end

/-- Each step goes on to where the elements after its event are open. -/
theorem step_fits (h : s.Fits names) (hstep : s.step e = .ok s') : s'.Fits (e.nest names) := by
  cases s with
  | seeking =>
    obtain rfl : names = [] := h
    cases e with
    | startTag t =>
      simp only [State.step, atSeeking] at hstep
      split at hstep
      next hname =>
        cases hstep
        change [t.nameChars] = ["xml".toList]
        rw [nameChars_of_name hname]
      next => cases hstep
    | emptyTag t =>
      simp only [State.step, atSeeking] at hstep
      split at hstep
      next => cases hstep; trivial
      next => cases hstep
    | eof | failure => cases hstep
    | endTag | text | cdata | other => cases hstep; rfl
  | finished w =>
    cases e with
    | eof | failure => cases hstep
    | startTag | emptyTag | endTag | text | cdata | other => cases hstep; trivial
  | skipping w place name depth =>
    have hskip := skipping_fits w h e
    cases e with
    | eof | failure => cases hstep
    | startTag | emptyTag | endTag | text | cdata | other =>
      cases hstep
      exact hskip
  | reading w place =>
    have hplace : Fitting (e.nest names) (place.step w e) := by
      cases place with
      | top => exact atTop_fitting w h e
      | varList found => exact atVariables_fitting w h e
      | varText found id text =>
        refine atText_fitting w (.varText found id) text (fun _ => h) ?_ e
        rw [show names = _ from h]
        rfl
      | block outer b => exact atBlock_fitting w h e
      | field outer b name id text =>
        refine atText_fitting w (.field outer b name id) text (fun _ => h) ?_ e
        obtain ⟨inside, rfl, houter⟩ := h
        exact houter
      | input outer b i => exact atInput_fitting w h e
    cases e with
    | eof | failure => cases hstep
    | startTag | emptyTag | endTag | text | cdata | other => exact hplace s' hstep

/-- What stands before a place of a document settles how it is read, or brings the reader to a state in which the
elements that are open there are open. -/
theorem reads_before {text run : List Char} (h : Before text names run) :
    (∃ r, ∀ more, State.seeking.reads [] (text ++ more) = r) ∨ ∃ s : State, s.Fits names ∧
      ∀ more, State.seeking.reads [] (text ++ more) = s.reads names (run ++ more) := by
  induction h with
  | start => exact .inr ⟨.seeking, rfl, fun _ => rfl⟩
  | char _ _ ih =>
    rcases ih with ⟨r, hr⟩ | ⟨s, hs, hreads⟩
    · exact .inl ⟨r, fun more => by rw [List.append_assoc, hr]⟩
    · exact .inr ⟨s, hs, fun more => by rw [List.append_assoc, List.append_assoc, hreads]⟩
  | @markup text names given o run piece e hbefore hmarkup ih =>
    rcases ih with ⟨r, hr⟩ | ⟨s, hs, hreads⟩
    · exact .inl ⟨r, fun more => by rw [List.append_assoc, hr]⟩
    have hrun : ∀ more, State.seeking.reads [] (text ++ '<' :: piece ++ more) =
        s.step (.text run) >>= fun s => s.reads names ('<' :: (piece ++ more)) := fun more => by
      rw [List.append_assoc, hreads, List.cons_append, reads_text s hbefore.ne_of_mem_run (by simp)]
    cases htext : s.step (.text run) with
    | error cause => exact .inl ⟨.error cause, fun more => by rw [hrun, htext]; rfl⟩
    | ok s₁ =>
      rw [htext] at hrun
      have hfits : s₁.Fits names := step_fits hs htext
      -- an end tag may be the end of no open element, which is wrong whatever follows
      rcases (Event.markup_cases hmarkup).2.2 names with hpiece | ⟨cause, hwrong⟩
      · have hmore : ∀ more, State.seeking.reads [] (text ++ '<' :: piece ++ more) =
            s₁.step e >>= fun s => s.reads (e.nest names) more := fun more =>
          (hrun more).trans (reads_markup s₁ (Event.markup_append hpiece more))
        cases hstep : s₁.step e with
        | error cause => exact .inl ⟨.error cause, fun more => by rw [hmore, hstep]; rfl⟩
        | ok s₂ => exact .inr ⟨s₂, step_fits hfits hstep, fun more => by rw [hmore, hstep]; rfl⟩
      · refine .inl ⟨s₁.run [.failure cause], fun more => (hrun more).trans ?_⟩
        have hscan : Event.scanFrom names ('<' :: (piece ++ more)) = [.failure cause] := by
          rw [Event.scanFrom]
          split
          next h => rw [hwrong] at h; cases h; rfl
          next h => rw [hwrong] at h; cases h
        change s₁.run (Event.scanFrom names ('<' :: (piece ++ more))) = _
        rw [hscan]

/-! Elements that mean nothing where they stand. -/

def Place.meanings : Place → List String
  | .top => ["variables", "block"]
  | .varList _ => ["variable"]
  | .block .. => "mutation" :: "field" :: slotNames
  | .input .. => roleNames
  | .varText .. | .field .. => []

/-- The attributes of all elements in a block are read. -/
def Place.readsAttributes : Place → Bool
  | .block .. => true
  | _ => false

section

variable (w : Workspace) {place : Place} {t : Tag}

/-- The tags of an element that means nothing do nothing, or begin to pass it over. -/
theorem step_meaningless (hname : t.name ∉ place.meanings)
    (hattributes : place.readsAttributes = true → ∃ a, attributes t = .ok a) :
    (State.reading w place).step (.emptyTag t) = .ok (.reading w place) ∧
      (State.reading w place).step (.startTag t) = .ok (.skipping w place t.name 0) := by
  cases place with
  | top =>
    simp only [Place.meanings, List.mem_cons, List.not_mem_nil, or_false, not_or] at hname
    obtain ⟨hvariables, hblock⟩ := hname
    constructor <;> simp only [State.step, Place.step, atTop]
  | varList found =>
    simp only [Place.meanings, List.mem_cons, List.not_mem_nil, or_false] at hname
    constructor <;> simp only [State.step, Place.step, atVariables]
  | block outer b =>
    obtain ⟨a, ha⟩ := hattributes rfl
    simp only [Place.meanings, slotNames, List.mem_cons, List.not_mem_nil, or_false, not_or] at hname
    obtain ⟨hmutation, hfield, hvalue, hstatement, hnext⟩ := hname
    constructor <;> simp only [State.step, Place.step, atBlock, ha, bind, Except.bind] <;> rfl
  | input outer b i =>
    simp only [Place.meanings, roleNames, List.mem_cons, List.not_mem_nil, or_false, not_or] at hname
    obtain ⟨hblock, hshadow⟩ := hname
    constructor <;> simp only [State.step, Place.step, atInput]
  | varText | field => exact ⟨rfl, rfl⟩

end

end Import

open Import Xml in
theorem Workspace.ofXml_place {before : String} {names : List (List Char)} {run : List Char}
    (place : Before before.toList names run) : (∃ r, ∀ more : String, ofXml (before ++ more) = r) ∨
      ∃ s : State, s.Fits names ∧ ∀ more : String, ofXml (before ++ more) = s.reads names (run ++ more.toList) := by
  rcases reads_before place with ⟨r, hr⟩ | ⟨s, hs, hreads⟩
  · exact .inl ⟨r, fun more => by rw [ofXml_eq_reads, String.toList_append, hr]⟩
  · exact .inr ⟨s, hs, fun more => by rw [ofXml_eq_reads, String.toList_append, hreads]⟩

end ScopeBlocks
