import ScopeBlocks.Proofs.Xml.Prefixes

/-! Places in a document. There is one between any two pieces of markup, and between any two characters of a text.
What stands before a place settles which elements are open there, whatever stands behind it. -/
namespace ScopeBlocks.Xml

namespace Event

variable {opened o : List (List Char)} {s rest : List Char} {e : Event}

/-- The names of the open elements after an event, the innermost first. An end tag closes that one. -/
def nest (opened : List (List Char)) : Event → List (List Char)
  | .startTag t => t.nameChars :: opened
  | .endTag => opened.tail
  | _ => opened

/-- Whether an event is a piece of the text, neither its end nor what is wrong in it. -/
def isPiece : Event → Bool
  | .eof | .failure _ => false
  | _ => true

/-- Markup that is the same piece whatever elements are open before it. -/
def Steady (scanner : List (List Char) → List Char → Scanned) : Prop :=
  ∀ {opened s e o rest}, scanner opened s = .ok (e, o, rest) →
    o = e.nest opened ∧ e.isPiece = true ∧ ∀ opened', scanner opened' s = .ok (e, e.nest opened', rest)

theorem steady_opening : Steady opening := by
  intro opened s e o rest h
  unfold opening at h ⊢
  split at h
  next => cases h
  next content r hend =>
    split at h
    next hslash =>
      cases h
      exact ⟨rfl, rfl, fun _ => if_pos hslash⟩
    next hslash =>
      cases h
      exact ⟨rfl, rfl, fun _ => if_neg hslash⟩

theorem steady_instruction : Steady instruction := by
  intro opened s e o rest h
  unfold instruction at h ⊢
  split at h
  next => cases h
  next =>
    split at h
    next =>
      cases h
      exact ⟨rfl, rfl, fun _ => rfl⟩
    next => cases h

theorem steady_doctype : Steady doctype := by
  intro opened s e o rest h
  unfold doctype at h ⊢
  split at h
  next hname =>
    simp only [if_pos hname]
    split at h
    next => cases h
    next =>
      split at h
      next => cases h
      next hblank =>
        cases h
        exact ⟨rfl, rfl, fun _ => if_neg hblank⟩
  next => cases h

theorem steady_declaration : Steady declaration := by
  intro opened s e o rest h
  unfold declaration at h ⊢
  split at h
  case h_1 | h_2 =>
    split at h
    next =>
      cases h
      exact ⟨rfl, rfl, fun _ => rfl⟩
    next => cases h
  case h_3 | h_4 => exact steady_doctype h
  case h_5 => cases h

theorem closing_cases (h : closing opened s = .ok (e, o, rest)) : e = .endTag ∧ o = opened.tail ∧
    ∀ opened', closing opened' s = .ok (.endTag, opened'.tail, rest) ∨
      ∃ cause, ∀ more, closing opened' (s ++ more) = .error cause := by
  unfold closing at h
  split at h
  next => cases h
  next content r hend =>
    have hnone (more : List Char) :
        closing [] (s ++ more) = .error (.unmatchedEnd (String.ofList (trimmedName content))) := by
      rw [closing, tagEnd?_append hend]
    have hsome (expected : List Char) (opened' : List (List Char)) (more : List Char) :
        closing (expected :: opened') (s ++ more) =
          if trimmedName content = expected then .ok (.endTag, opened', r ++ more)
          else .error (.mismatchedEnd (String.ofList expected) (String.ofList (trimmedName content))) := by
      rw [closing, tagEnd?_append hend]
    cases opened with
    | nil => cases h
    | cons expected opened =>
      dsimp only at h
      split at h
      next =>
        cases h
        refine ⟨rfl, rfl, fun opened' => ?_⟩
        cases opened' with
        | nil => exact .inr ⟨_, hnone⟩
        | cons expected' opened' =>
          by_cases hname : trimmedName content = expected'
          · have hsame := hsome expected' opened' []
            rw [List.append_nil, List.append_nil] at hsame
            exact .inl (hsame.trans (if_pos hname))
          · exact .inr ⟨_, fun more => (hsome _ _ more).trans (if_neg hname)⟩
      next => cases h

/-- A piece of markup is the same whatever elements are open before it, but that an end tag may be wrong. -/
theorem markup_cases (h : markup opened s = .ok (e, o, rest)) : o = e.nest opened ∧ e.isPiece = true ∧
    ∀ opened', markup opened' s = .ok (e, e.nest opened', rest) ∨
      ∃ cause, ∀ more, markup opened' (s ++ more) = .error cause := by
  unfold markup at h ⊢
  split at h
  next body =>
    obtain ⟨rfl, ho, hcases⟩ := closing_cases h
    exact ⟨ho, rfl, hcases⟩
  next body =>
    obtain ⟨ho, hpiece, hsame⟩ := steady_instruction h
    exact ⟨ho, hpiece, fun opened' => .inl (hsame opened')⟩
  next body =>
    obtain ⟨ho, hpiece, hsame⟩ := steady_declaration h
    exact ⟨ho, hpiece, fun opened' => .inl (hsame opened')⟩
  next =>
    obtain ⟨ho, hpiece, hsame⟩ := steady_opening h
    exact ⟨ho, hpiece, fun opened' => .inl (hsame opened')⟩

end Event

open Event

/-- A text from the beginning of a document to a place between its pieces, the names of the elements that are open
there, innermost first, and the characters since the last markup. Markup is what is one piece where some elements
are open before it; an end tag closes the innermost element even if its name is another one. -/
inductive Before : List Char → List (List Char) → List Char → Prop
  | start : Before [] [] []
  | char {text : List Char} {opened : List (List Char)} {run : List Char} {c : Char} :
    Before text opened run → c ≠ '<' → Before (text ++ [c]) opened (run ++ [c])
  | markup {text : List Char} {opened given o : List (List Char)} {run piece : List Char} {e : Event} :
    Before text opened run → Event.markup given piece = .ok (e, o, []) →
      Before (text ++ '<' :: piece) (e.nest opened) []

namespace Before

variable {text run : List Char} {opened : List (List Char)}

theorem ne_of_mem_run (h : Before text opened run) : ∀ c ∈ run, c ≠ '<' := by
  induction h with
  | start | markup => exact fun c hc => absurd hc List.not_mem_nil
  | char _ hc ih => exact fun d hd => (List.mem_append.1 hd).elim (ih d) fun hd => List.mem_singleton.1 hd ▸ hc

end Before

def emptyElement (tag : String) : String := "<" ++ tag ++ "/>"

def tagName (tag : String) : String := Tag.name ⟨tag.toList⟩

def pairedElement (tag : String) : String := "<" ++ tag ++ "></" ++ tagName tag ++ ">"

theorem toList_emptyElement (tag : String) : (emptyElement tag).toList = '<' :: (tag.toList ++ ['/', '>']) := by
  simp [emptyElement]

theorem toList_pairedElement (tag : String) : (pairedElement tag).toList =
    '<' :: (tag.toList ++ '>' :: '<' :: '/' :: (Tag.nameChars ⟨tag.toList⟩ ++ ['>'])) := by
  simp [pairedElement, tagName, Tag.name]

end ScopeBlocks.Xml
