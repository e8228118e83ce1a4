import ScopeBlocks.Proofs.Xml.TagReadBack
import ScopeBlocks.Xml.Event

/-! Documents read back as they are written. The lines of an element are scanned into the events of its
tags and texts; what stands between two lines is blank text, which an element that holds no text has
around its children. -/
namespace ScopeBlocks.Xml

namespace Event

def Inside (s : List Char) : Prop := ∀ rest, tagEnd? none (s ++ rest) =
  (tagEnd? none rest).map fun (content, r) => (s ++ content, r)

theorem inside_nil : Inside [] := fun rest => by
  cases h : tagEnd? none rest <;> simp [h]

theorem Inside.append {s t : List Char} (hs : Inside s) (ht : Inside t) : Inside (s ++ t) := by
  intro rest
  rw [List.append_assoc, hs, ht, Option.map_map]
  congr 1
  funext x
  simp

theorem tagEnd?_unquoted {c : Char} (h : c ≠ '>') (rest : List Char) : tagEnd? none (c :: rest) =
    (tagEnd? (if c = '"' ∨ c = '\'' then some c else none) rest).map fun (content, r) => (c :: content, r) :=
  tagEnd?.eq_3 _ _ fun hc => h hc

theorem inside_of_unquoted {s : List Char} (h : ∀ c ∈ s, c ≠ '>' ∧ c ≠ '"' ∧ c ≠ '\'') : Inside s := by
  induction s with
  | nil => exact inside_nil
  | cons c s ih =>
    obtain ⟨hclose, hdouble, hsingle⟩ := h c List.mem_cons_self
    intro rest
    have hc : tagEnd? none (c :: (s ++ rest)) =
        (tagEnd? none (s ++ rest)).map fun (content, r) => (c :: content, r) := by
      rw [tagEnd?_unquoted hclose, if_neg (by simp [hdouble, hsingle])]
    rw [List.cons_append, hc, ih (fun x hx => h x (List.mem_cons_of_mem _ hx)), Option.map_map]
    rfl

theorem inside_of_isPlain {s : List Char} (h : ∀ c ∈ s, isPlain c = true) : Inside s :=
  inside_of_unquoted fun c hc => by
    obtain ⟨-, hclose, hdouble, hsingle, -⟩ := isPlain_iff.1 (h c hc)
    exact ⟨hclose, hdouble, hsingle⟩

theorem tagEnd?_quote {q c : Char} (rest : List Char) : tagEnd? (some q) (c :: rest) =
    (tagEnd? (if c = q then none else some q) rest).map fun (content, r) => (c :: content, r) := by
  rw [tagEnd?]

/-- A value between its quotes lies in a tag, whatever brackets it holds. -/
theorem inside_quoted {q : Char} {s : List Char} (hq : q = '"' ∨ q = '\'') (h : ∀ c ∈ s, c ≠ q) :
    Inside (q :: s ++ [q]) := by
  have hbody : ∀ rest, tagEnd? (some q) (s ++ q :: rest) =
      (tagEnd? none rest).map fun (content, r) => (s ++ q :: content, r) := by
    intro rest
    induction s with
    | nil => rw [List.nil_append, tagEnd?_quote, if_pos rfl]; rfl
    | cons c s ih =>
      rw [List.cons_append, tagEnd?_quote, if_neg (h c List.mem_cons_self),
        ih fun x hx => h x (List.mem_cons_of_mem _ hx), Option.map_map]
      rfl
  intro rest
  have hclose : q ≠ '>' := by rcases hq with rfl | rfl <;> decide
  rw [show q :: s ++ [q] ++ rest = q :: (s ++ q :: rest) by simp,
    tagEnd?_unquoted hclose, if_pos hq, hbody, Option.map_map]
  congr 1
  funext x
  simp

/-- One bracket behind a run tells whether the run lies in a tag as a whole. -/
theorem inside_iff {s : List Char} : Inside s ↔ tagEnd? none (s ++ ['>']) = some (s, []) := by
  refine ⟨fun h => by rw [h, tagEnd?]; simp, fun h => ?_⟩
  -- the run may be entered between quotes, so the open quote is general in the induction
  suffices hgen : ∀ q, tagEnd? q (s ++ ['>']) = some (s, []) → ∀ rest, tagEnd? q (s ++ rest) =
      (tagEnd? none rest).map fun (content, r) => (s ++ content, r) from hgen none h
  clear h
  have hstep {q : Option Char} {c : Char} {s : List Char}
      (h : (tagEnd? q (s ++ ['>'])).map (fun (content, r) => (c :: content, r)) = some (c :: s, [])) :
      tagEnd? q (s ++ ['>']) = some (s, []) := by
    obtain ⟨⟨content, r⟩, hend, hpair⟩ := Option.map_eq_some_iff.1 h
    cases hpair
    exact hend
  induction s with
  | nil =>
    intro q h rest
    cases q with
    | none => exact inside_nil rest
    | some q => rw [List.nil_append, tagEnd?_quote, tagEnd?.eq_1] at h; cases h
  | cons c s ih =>
    intro q h rest
    cases q with
    | none =>
      have hc : c ≠ '>' := by
        rintro rfl
        rw [List.cons_append, tagEnd?] at h
        cases h
      rw [List.cons_append, tagEnd?_unquoted hc] at h ⊢
      rw [ih _ (hstep h), Option.map_map]
      rfl
    | some q =>
      rw [List.cons_append, tagEnd?_quote] at h ⊢
      rw [ih _ (hstep h), Option.map_map]
      rfl

instance (s : List Char) : Decidable (Inside s) := decidable_of_iff _ inside_iff.symm

end Event

open Event

/-- The content of a tag that is read whole: it begins with a name, its brackets stand between quotes, and no
slash at its end takes the content away from its element. -/
structure IsTag (tag : List Char) : Prop where
  begins : ∃ c ∈ tag.head?, c ≠ '/' ∧ c ≠ '?' ∧ c ≠ '!'
  inside : Inside tag
  ends : tag.getLast? ≠ some '/'
  name : Inside (Tag.nameChars ⟨tag⟩)

theorem not_isBlank_of_mem_name {t : Tag} {c : Char} (h : c ∈ t.nameChars) : isBlank c = false := by
  simpa using List.all_eq_true.1 List.all_takeWhile c h

theorem trimmedName_append {name blanks : List Char} (hname : ∀ c ∈ name, isBlank c = false)
    (hblanks : ∀ c ∈ blanks, isBlank c = true) (hne : name ≠ [] ∨ blanks = []) :
    trimmedName (name ++ blanks) = name := by
  rcases List.eq_nil_or_concat name with rfl | ⟨cs, d, rfl⟩
  · rw [hne.resolve_left fun h => h rfl]
    rfl
  · have hd : isBlank d = false := hname d (by simp)
    have hall : (cs.concat d ++ blanks).all isBlank = false := by simp [hd]
    have hdrop : (cs.concat d ++ blanks).reverse.dropWhile isBlank = (cs.concat d).reverse := by
      rw [List.reverse_append, List.dropWhile_append_of_pos fun c hc => hblanks c (List.mem_reverse.1 hc)]
      simp [hd]
    rw [trimmedName, if_neg (by rw [hall]; decide), Text.dropEndWhile, hdrop, List.reverse_reverse]

namespace IsTag

variable {tag : List Char} (h : IsTag tag) (opened : List (List Char)) (rest : List Char)

include h

theorem markup_opening (s : List Char) : markup opened (tag ++ s) = opening opened (tag ++ s) := by
  obtain ⟨c, hc, hslash, hquestion, hbang⟩ := h.begins
  obtain ⟨cs, rfl⟩ := List.head?_eq_some_iff.1 hc
  rw [List.cons_append]
  unfold markup
  split
  next heq => exact absurd (List.cons.inj heq).1 hslash
  next heq => exact absurd (List.cons.inj heq).1 hquestion
  next heq => exact absurd (List.cons.inj heq).1 hbang
  next => rfl

theorem markup_start : markup opened (tag ++ '>' :: rest) =
    .ok (.startTag ⟨tag⟩, Tag.nameChars ⟨tag⟩ :: opened, rest) := by
  have hend : tagEnd? none (tag ++ '>' :: rest) = some (tag, rest) := by
    rw [h.inside, tagEnd?]
    simp
  rw [h.markup_opening]
  simp only [opening, hend, if_neg h.ends]

theorem markup_empty : markup opened (tag ++ '/' :: '>' :: rest) = .ok (.emptyTag ⟨tag⟩, opened, rest) := by
  have hend : tagEnd? none (tag ++ '/' :: '>' :: rest) = some (tag ++ ['/'], rest) := by
    rw [h.inside, tagEnd?_unquoted (by decide), if_neg (by decide), tagEnd?]
    rfl
  rw [h.markup_opening]
  simp only [opening, hend, List.getLast?_concat, if_true, List.dropLast_concat]

theorem markup_end {blanks : List Char} (hblanks : ∀ c ∈ blanks, isBlank c = true)
    (hne : Tag.nameChars ⟨tag⟩ ≠ [] ∨ blanks = []) :
    markup (Tag.nameChars ⟨tag⟩ :: opened) ('/' :: (Tag.nameChars ⟨tag⟩ ++ blanks) ++ '>' :: rest) =
      .ok (.endTag, opened, rest) := by
  have hinside : Inside blanks := inside_of_unquoted fun c hc => by
    have hc := hblanks c hc
    refine ⟨?_, ?_, ?_⟩ <;> rintro rfl <;> revert hc <;> decide
  have hend : tagEnd? none (Tag.nameChars ⟨tag⟩ ++ blanks ++ '>' :: rest) =
      some (Tag.nameChars ⟨tag⟩ ++ blanks, rest) := by
    rw [h.name.append hinside, tagEnd?]
    simp
  have hlast := trimmedName_append (fun _ => not_isBlank_of_mem_name) hblanks hne
  simp only [List.cons_append, markup, closing, hend, hlast, if_true]

end IsTag

namespace Named

variable {name : String} {attributes : List (String × String)}

theorem inside_name (h : Named name attributes) : Inside name.toList :=
  inside_of_isPlain fun c hc => (isPlain_of_isAlpha (h.alpha c hc)).1

theorem inside_tag (h : Named name attributes) : Inside (Node.tagText name attributes) := by
  have hattributes : Inside (attributes.flatMap Node.attributeText) := by
    have hplain := h.plain
    clear h
    induction attributes with
    | nil => exact inside_nil
    | cons a attributes ih =>
      obtain ⟨key, value⟩ := a
      have hblank : Inside [' '] := by decide
      have hequals : Inside ['='] := by decide
      have hkey := (hblank.append (inside_of_isPlain (hplain _ List.mem_cons_self).2)).append hequals
      have hvalue := inside_quoted (.inl rfl) fun c (hc : c ∈ escape value.toList) => (ne_of_mem_escape hc).2.2.1
      have htext : Node.attributeText (key, value) =
          (' ' :: key.toList ++ ['=']) ++ ('"' :: escape value.toList ++ ['"']) := by
        simp [Node.attributeText]
      rw [List.flatMap_cons, htext]
      exact (hkey.append hvalue).append (ih fun a ha => hplain a (List.mem_cons_of_mem _ ha))
  exact h.inside_name.append hattributes

variable (h : Named name attributes)

include h

theorem exists_cons : ∃ c cs, name.toList = c :: cs ∧ c.isAlpha = true := by
  obtain ⟨c, cs, hcs⟩ := List.exists_cons_of_ne_nil (l := name.toList) (by simpa using h.ne)
  exact ⟨c, cs, hcs, h.alpha c (hcs ▸ List.mem_cons_self)⟩

theorem getLast?_tag : (Node.tagText name attributes).getLast? ≠ some '/' := by
  rcases List.eq_nil_or_concat attributes with rfl | ⟨as, a, rfl⟩
  · intro hlast
    have hmem : '/' ∈ name.toList := List.mem_of_getLast? (by simpa [Node.tagText] using hlast)
    exact absurd (h.alpha _ hmem) (by decide)
  · obtain ⟨key, value⟩ := a
    have htext : Node.tagText name (as.concat (key, value)) = name.toList ++
        as.flatMap Node.attributeText ++ ' ' :: key.toList ++ '=' :: '"' :: escape value.toList ++
          ['"'] := by
      simp [Node.tagText, Node.attributeText]
    rw [htext, List.getLast?_concat]
    decide

theorem isTag : IsTag (Node.tagText name attributes) where
  begins := by
    obtain ⟨c, cs, hcs, hc⟩ := h.exists_cons
    refine ⟨c, by rw [Node.tagText, hcs]; rfl, ?_, ?_, ?_⟩ <;> rintro rfl <;> revert hc <;> decide
  inside := h.inside_tag
  ends := h.getLast?_tag
  name := by
    rw [h.name_tag]
    exact h.inside_name

end Named

namespace Event

variable {opened opened' : List (List Char)}

theorem scanFrom_markup {s rest : List Char} {e : Event}
    (h : markup opened s = .ok (e, opened', rest)) :
    scanFrom opened ('<' :: s) = e :: scanFrom opened' rest := by
  rw [scanFrom]
  split
  next h' => rw [h] at h'; cases h'
  next h' => rw [h] at h'; cases h'; rfl

theorem scanFrom_run {c : Char} {run s : List Char} (h : ∀ x ∈ c :: run, x ≠ '<') (hs : ∀ x ∈ s.head?, x = '<') :
    scanFrom opened (c :: run ++ s) = .text (c :: run) :: scanFrom opened s := by
  have hrun : ∀ x ∈ run, inText x = true := fun x hx => by
    simpa [inText] using h x (List.mem_cons_of_mem _ hx)
  have hsplit : s.takeWhile inText = [] ∧ s.dropWhile inText = s := by
    cases s with
    | nil => exact ⟨rfl, rfl⟩
    | cons d rest =>
      obtain rfl := hs d rfl
      exact ⟨rfl, rfl⟩
  rw [List.cons_append, scanFrom.eq_3 _ _ _ (fun hc => h c List.mem_cons_self hc),
    List.takeWhile_append_of_pos hrun, List.dropWhile_append_of_pos hrun, hsplit.1, hsplit.2, List.append_nil]

theorem scanFrom_text {run s : List Char} (hne : run ≠ []) (h : ∀ c ∈ run, c ≠ '<')
    (hs : s.head? = some '<') : scanFrom opened (run ++ s) = .text run :: scanFrom opened s := by
  obtain ⟨c, run, rfl⟩ := List.exists_cons_of_ne_nil hne
  exact scanFrom_run h (by simp [hs])

end Event

namespace Named

variable {name : String} {attributes : List (String × String)} (h : Named name attributes)
  (opened : List (List Char)) (rest : List Char)

include h

theorem scanFrom_empty : scanFrom opened ('<' :: Node.tagText name attributes ++ "/>".toList ++ rest) =
    .emptyTag ⟨Node.tagText name attributes⟩ :: scanFrom opened rest := by
  rw [List.append_assoc]
  exact scanFrom_markup (h.isTag.markup_empty opened rest)

theorem scanFrom_start : scanFrom opened (Node.opening name attributes ++ rest) =
    .startTag ⟨Node.tagText name attributes⟩ :: scanFrom (name.toList :: opened) rest := by
  have hstart := h.isTag.markup_start opened rest
  rw [h.name_tag] at hstart
  rw [Node.opening, List.append_assoc]
  exact scanFrom_markup hstart

theorem scanFrom_end : scanFrom (name.toList :: opened) (Node.closing name ++ rest) =
    .endTag :: scanFrom opened rest := by
  have hend := h.isTag.markup_end opened rest (fun _ hc => absurd hc List.not_mem_nil) (.inr rfl)
  rw [h.name_tag, List.append_nil] at hend
  rw [Node.closing, List.append_assoc, List.append_assoc]
  exact scanFrom_markup hend

end Named

namespace Node

/-- What stands between the line before and the tag at a depth. -/
def gap (depth : Nat) : List Char := '\n' :: List.replicate (2 * depth) ' '

mutual

/-- The events of an element; its children stand a step deeper than itself. -/
def events (depth : Nat) : Node → List Event
  | .empty name attributes => [.emptyTag ⟨tagText name attributes⟩]
  | .text name attributes content =>
    [.startTag ⟨tagText name attributes⟩, .text (escape content.toList), .endTag]
  | .element name attributes children =>
    .startTag ⟨tagText name attributes⟩ :: eventsAll (depth + 1) children ++ [.text (gap depth), .endTag]

def eventsAll (depth : Nat) : List Node → List Event
  | [] => []
  | n :: rest => .text (gap depth) :: n.events depth ++ eventsAll depth rest

end

mutual

/-- Whether all tags in an element can be read back. -/
def Proper : Node → Prop
  | .empty name attributes => Named name attributes
  | .text name attributes content => Named name attributes ∧ content ≠ ""
  | .element name attributes children => Named name attributes ∧ AllProper children

def AllProper : List Node → Prop
  | [] => True
  | n :: rest => n.Proper ∧ AllProper rest

end

def continued (ls : List (List Char)) : List Char := ls.flatMap ('\n' :: ·)

theorem continued_append (ks ls : List (List Char)) :
    continued (ks ++ ls) = continued ks ++ continued ls := List.flatMap_append

theorem continued_indent (depth : Nat) (line : List Char) :
    continued [indent depth line] = gap depth ++ line := by
  simp [continued, indent, gap]

theorem cons_intercalate {ls : List (List Char)} (h : ls ≠ []) :
    '\n' :: ['\n'].intercalate ls = continued ls := by
  induction ls with
  | nil => exact absurd rfl h
  | cons l ls ih =>
    cases ls with
    | nil => simp [List.intercalate, continued]
    | cons k ls =>
      have hrest := ih (List.cons_ne_nil k ls)
      rw [continued, List.flatMap_cons]
      change _ = '\n' :: l ++ continued (k :: ls)
      rw [← hrest]
      simp [List.intercalate]

theorem scanFrom_gap {opened : List (List Char)} {s : List Char} (depth : Nat)
    (hs : s.head? = some '<') :
    scanFrom opened (gap depth ++ s) = .text (gap depth) :: scanFrom opened s := by
  refine scanFrom_text (List.cons_ne_nil _ _) (fun c hc => ?_) hs
  rcases List.mem_cons.1 hc with rfl | hc
  · decide
  · rw [List.eq_of_mem_replicate hc]
    decide

mutual

theorem scanFrom_lines (opened : List (List Char)) (depth : Nat) (rest : List Char) :
    (n : Node) → n.Proper → scanFrom opened (continued (n.lines depth) ++ rest) =
      .text (gap depth) :: n.events depth ++ scanFrom opened rest
  | .empty name attributes, h => by
    rw [Proper] at h
    rw [lines, continued_indent, List.append_assoc, scanFrom_gap depth rfl, h.scanFrom_empty, events]
    rfl
  | .text name attributes content, h => by
    rw [Proper] at h
    obtain ⟨h, hcontent⟩ := h
    have hne : escape content.toList ≠ [] := escape_ne_nil (by simpa using hcontent)
    rw [lines, continued_indent, List.append_assoc, List.append_assoc, List.append_assoc,
      scanFrom_gap depth rfl, h.scanFrom_start,
      scanFrom_text hne (fun c hc => (ne_of_mem_escape hc).1) rfl, h.scanFrom_end, events]
    rfl
  | .element name attributes children, h => by
    rw [Proper] at h
    obtain ⟨h, hchildren⟩ := h
    rw [lines, ← List.singleton_append, continued_append, continued_append, continued_indent,
      continued_indent, List.append_assoc, List.append_assoc, List.append_assoc,
      scanFrom_gap depth rfl, h.scanFrom_start,
      scanFrom_linesAll _ (depth + 1) _ children hchildren, List.append_assoc,
      scanFrom_gap depth rfl, h.scanFrom_end, events]
    simp

theorem scanFrom_linesAll (opened : List (List Char)) (depth : Nat) (rest : List Char) :
    (ns : List Node) → AllProper ns → scanFrom opened (continued (linesAll depth ns) ++ rest) =
      eventsAll depth ns ++ scanFrom opened rest
  | [], _ => by rw [linesAll, eventsAll]; rfl
  | n :: ns, h => by
    rw [AllProper] at h
    rw [linesAll, continued_append, List.append_assoc, scanFrom_lines opened depth _ n h.1,
      scanFrom_linesAll opened depth rest ns h.2, eventsAll]
    simp

end

theorem lines_ne_nil (depth : Nat) (n : Node) : n.lines depth ≠ [] := by
  cases n <;> rw [lines] <;> simp

theorem exists_continued (depth : Nat) (n : Node) :
    ∃ s, continued (n.lines depth) = gap depth ++ '<' :: s := by
  cases n with
  | empty => exact ⟨_, by rw [lines, continued_indent]; rfl⟩
  | text => exact ⟨_, by rw [lines, continued_indent]; rfl⟩
  | element name attributes children =>
    rw [lines, List.cons_append, ← List.singleton_append, continued_append, continued_indent,
      List.append_assoc]
    exact ⟨_, rfl⟩

/-- The text of a document is scanned into the events of its element. -/
theorem scan_chars {n : Node} (h : n.Proper) : scan n.chars = n.events 0 ++ [.eof] := by
  have hlines := scanFrom_lines [] 0 [] n h
  obtain ⟨s, hs⟩ := exists_continued 0 n
  have hchars : '\n' :: n.chars = '\n' :: '<' :: s := (cons_intercalate (lines_ne_nil 0 n)).trans hs
  have hgap : scanFrom [] (gap 0 ++ '<' :: s) = _ := scanFrom_gap 0 rfl
  rw [List.append_nil, hs, hgap] at hlines
  have hend : scanFrom [] [] = [.eof] := by rw [scanFrom]
  rw [(List.cons.inj hchars).2, ← hend]
  exact (List.cons.inj hlines).2

end Node

end ScopeBlocks.Xml
