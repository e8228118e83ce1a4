import ScopeBlocks.Xml.Tag

/-! XML text as a list of events: tags, runs of text, CDATA sections and whatever else markup may hold.
The list ends with the end of the text or with the first thing that is wrong in it. End tags must close
the tag opened last. -/
namespace ScopeBlocks.Xml

open Text (after? cut? length_dropWhile_le)

inductive Event where
  | startTag (tag : Tag)
  | emptyTag (tag : Tag)
  | endTag
  | text (run : List Char)
  | cdata (content : List Char)
  | other
  | eof
  | failure (error : Error)
  deriving DecidableEq, Repr

namespace Event

/-- The content of a tag up to the first closing bracket outside of quotes, and what follows it. -/
def tagEnd? : Option Char → List Char → Option (List Char × List Char)
  | _, [] => none
  | none, '>' :: rest => some ([], rest)
  | none, c :: rest =>
    (tagEnd? (if c = '"' ∨ c = '\'' then some c else none) rest).map
      fun (content, r) => (c :: content, r)
  | some q, c :: rest =>
    (tagEnd? (if c = q then none else some q) rest).map fun (content, r) => (c :: content, r)

/-- What follows the closing bracket of a declaration that may hold further brackets. -/
def declarationEnd? (depth : Nat) : List Char → Option (List Char × List Char)
  | [] => none
  | '<' :: rest => (declarationEnd? (depth + 1) rest).map fun (body, r) => ('<' :: body, r)
  | '>' :: rest =>
    match depth with
    | 0 => some ([], rest)
    | d + 1 => (declarationEnd? d rest).map fun (body, r) => ('>' :: body, r)
  | c :: rest => (declarationEnd? depth rest).map fun (body, r) => (c :: body, r)

/-- An event, the names of the open tags after it, and the text that follows it. -/
abbrev Scanned := Except Error (Event × List (List Char) × List Char)

/-- A content without the white space at its end, where there is more than that. -/
def trimmedName (content : List Char) : List Char :=
  if content.all isBlank then content else Text.dropEndWhile isBlank content

def closing (opened : List (List Char)) (s : List Char) : Scanned :=
  match tagEnd? none s with
  | none => .error .tagNotClosed
  | some (content, rest) =>
    let name := trimmedName content
    match opened with
    | [] => .error (.unmatchedEnd (String.ofList name))
    | expected :: opened =>
      if name = expected then .ok (.endTag, opened, rest)
      else .error (.mismatchedEnd (String.ofList expected) (String.ofList name))

/-- A tag that opens an element or, with a slash at its end, is a whole one. -/
def opening (opened : List (List Char)) (s : List Char) : Scanned :=
  match tagEnd? none s with
  | none => .error .tagNotClosed
  | some (content, rest) =>
    if content.getLast? = some '/' then .ok (.emptyTag ⟨content.dropLast⟩, opened, rest)
    else .ok (.startTag ⟨content⟩, Tag.nameChars ⟨content⟩ :: opened, rest)

def instruction (opened : List (List Char)) (s : List Char) : Scanned :=
  match s with
  | '>' :: _ => .error .instructionNotClosed
  | s =>
    match cut? "?>".toList s with
    | some (_, rest) => .ok (.other, opened, rest)
    | none => .error .instructionNotClosed

def doctype (opened : List (List Char)) (s : List Char) : Scanned :=
  if (s.take 7).map Char.toUpper = "DOCTYPE".toList then
    match declarationEnd? 0 (s.drop 7) with
    | none => .error .doctypeNotClosed
    | some (body, rest) =>
      if body.all isBlank then .error .namelessDoctype else .ok (.other, opened, rest)
  else .error .doctypeNotClosed

def declaration (opened : List (List Char)) (s : List Char) : Scanned :=
  match s with
  | '[' :: _ =>
    match (after? "[CDATA[".toList s).bind (cut? "]]>".toList) with
    | some (content, rest) => .ok (.cdata content, opened, rest)
    | none => .error .cdataNotClosed
  | '-' :: _ =>
    match (after? "--".toList s).bind (cut? "-->".toList) with
    | some (_, rest) => .ok (.other, opened, rest)
    | none => .error .commentNotClosed
  | 'D' :: _ | 'd' :: _ => doctype opened s
  | _ => .error .unknownMarkup

def markup (opened : List (List Char)) (s : List Char) : Scanned :=
  match s with
  | '/' :: rest => closing opened rest
  | '?' :: rest => instruction opened rest
  | '!' :: rest => declaration opened rest
  | s => opening opened s

theorem tagEnd?_length {q : Option Char} {s content rest : List Char}
    (h : tagEnd? q s = some (content, rest)) : rest.length ≤ s.length := by
  induction s generalizing q content rest with
  | nil => cases q <;> simp [tagEnd?] at h
  | cons c s ih =>
    unfold tagEnd? at h
    split at h
    · simp at h
    · simp_all
    all_goals
      rename_i hs
      simp only [List.cons.injEq] at hs
      obtain ⟨⟨_, r⟩, h', he⟩ := Option.map_eq_some_iff.1 h
      have := ih (hs.2 ▸ h')
      simp only [Prod.mk.injEq] at he
      rw [← he.2, List.length_cons]
      omega

theorem declarationEnd?_length {d : Nat} {s body rest : List Char}
    (h : declarationEnd? d s = some (body, rest)) : rest.length ≤ s.length := by
  fun_induction declarationEnd? d s generalizing body rest with
  | case1 => simp at h
  | case3 => simp_all
  | case2 _ _ ih | case4 _ _ ih | case5 _ _ _ _ _ ih =>
    obtain ⟨⟨_, r⟩, h', he⟩ := Option.map_eq_some_iff.1 h
    have := ih h'
    simp only [Prod.mk.injEq] at he
    rw [← he.2, List.length_cons]
    omega

theorem closing_length {opened o : List (List Char)} {s rest : List Char} {e : Event}
    (h : closing opened s = .ok (e, o, rest)) : rest.length ≤ s.length := by
  unfold closing at h
  have ht := @tagEnd?_length
  grind

theorem opening_length {opened o : List (List Char)} {s rest : List Char} {e : Event}
    (h : opening opened s = .ok (e, o, rest)) : rest.length ≤ s.length := by
  unfold opening at h
  have ht := @tagEnd?_length
  grind

theorem instruction_length {opened o : List (List Char)} {s rest : List Char} {e : Event}
    (h : instruction opened s = .ok (e, o, rest)) : rest.length ≤ s.length := by
  unfold instruction at h
  have hc := @Text.cut?_length Char _ "?>".toList
  grind

theorem doctype_length {opened o : List (List Char)} {s rest : List Char} {e : Event}
    (h : doctype opened s = .ok (e, o, rest)) : rest.length ≤ s.length := by
  unfold doctype at h
  split at h
  · split at h
    · simp at h
    · rename_i hd
      have := declarationEnd?_length hd
      rw [List.length_drop] at this
      split at h <;> simp_all
      omega
  · simp at h

theorem declaration_length {opened o : List (List Char)} {s rest : List Char} {e : Event}
    (h : declaration opened s = .ok (e, o, rest)) : rest.length ≤ s.length := by
  unfold declaration at h
  split at h
  · split at h
    next hcut =>
      cases h
      exact Text.length_of_after?_bind_cut? hcut
    next => cases h
  · split at h
    next hcut =>
      cases h
      exact Text.length_of_after?_bind_cut? hcut
    next => cases h
  · exact doctype_length h
  · exact doctype_length h
  · cases h

theorem markup_length {opened o : List (List Char)} {s rest : List Char} {e : Event}
    (h : markup opened s = .ok (e, o, rest)) : rest.length ≤ s.length := by
  unfold markup at h
  have hc := @closing_length
  have hi := @instruction_length
  have hd := @declaration_length
  have ho := @opening_length
  grind

def inText (c : Char) : Bool := c != '<'

/-- The events of a text, given the names of the tags that are open before it. -/
def scanFrom (opened : List (List Char)) (s : List Char) : List Event :=
  match s with
  | [] => [.eof]
  | '<' :: rest =>
    match h : markup opened rest with
    | .error e => [.failure e]
    | .ok (e, opened, r) =>
      have := markup_length h
      e :: scanFrom opened r
  | c :: rest =>
    have := length_dropWhile_le inText rest
    .text (c :: rest.takeWhile inText) :: scanFrom opened (rest.dropWhile inText)
termination_by s.length
decreasing_by all_goals (simp only [List.length_cons]; omega)

/-- The events of a whole text; a byte order mark before it is no part of it. -/
def scan (s : List Char) : List Event :=
  match s with
  | '\uFEFF' :: rest => scanFrom [] rest
  | s => scanFrom [] s

end Event

end ScopeBlocks.Xml
