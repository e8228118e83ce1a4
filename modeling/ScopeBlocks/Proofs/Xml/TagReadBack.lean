import ScopeBlocks.Proofs.Dict
import ScopeBlocks.Xml.Node
import ScopeBlocks.Xml.Tag

/-! Tags read back as they are written. An escaped text holds none of the characters that end a text or
an attribute value, and its entities stand for the characters that were written as them. The attributes
of a written tag are read one after another, each from the blank before its key to its closing quote. -/
namespace ScopeBlocks.Xml

section Entities

variable (total offset : Nat)

theorem unescapeFrom_char {c : Char} (h : c ≠ '&') (rest : List Char) :
    unescapeFrom total offset (c :: rest) =
      (unescapeFrom total (offset + c.utf8Size) rest).map (c :: ·) := by
  rw [unescapeFrom, if_neg h]
  cases unescapeFrom total (offset + c.utf8Size) rest <;> rfl

theorem unescapeFrom_entity {name : List Char} {x : Char} (hname : ∀ c ∈ name, inEntity c = true)
    (hx : ∀ offset, resolve offset name = .ok x) (rest : List Char) :
    unescapeFrom total offset ('&' :: name ++ ';' :: rest) =
      (unescapeFrom total (offset + Text.byteLength name + 2) rest).map (x :: ·) := by
  have hstop : inEntity ';' = false := by decide
  have htake : (name ++ ';' :: rest).takeWhile inEntity = name := by
    rw [List.takeWhile_append_of_pos hname, List.takeWhile_cons_of_neg (by simp [hstop]),
      List.append_nil]
  have hdrop : (name ++ ';' :: rest).dropWhile inEntity = ';' :: rest := by
    rw [List.dropWhile_append_of_pos hname, List.dropWhile_cons_of_neg (by simp [hstop])]
  rw [List.cons_append, unescapeFrom, if_pos rfl]
  split
  next after hafter =>
    rw [hdrop] at hafter
    cases hafter
    simp only [htake, hx]
    cases unescapeFrom total (offset + Text.byteLength name + 2) rest <;> rfl
  next hother => exact absurd hdrop (hother _)

theorem escapeChar_cases (c : Char) : c ≠ '&' ∧ escapeChar c = [c] ∨
    ∃ name, escapeChar c = '&' :: name ++ [';'] ∧ (∀ x ∈ name, inEntity x = true) ∧
      ∀ offset, resolve offset name = .ok c := by
  unfold escapeChar
  split
  case h_6 hlt hgt hamp hapos hquot => exact .inl ⟨by rintro rfl; exact hamp rfl, rfl⟩
  case h_1 => exact .inr ⟨"lt".toList, by simp, List.all_eq_true.1 rfl, fun _ => rfl⟩
  case h_2 => exact .inr ⟨"gt".toList, by simp, List.all_eq_true.1 rfl, fun _ => rfl⟩
  case h_3 => exact .inr ⟨"amp".toList, by simp, List.all_eq_true.1 rfl, fun _ => rfl⟩
  case h_4 => exact .inr ⟨"apos".toList, by simp, List.all_eq_true.1 rfl, fun _ => rfl⟩
  case h_5 => exact .inr ⟨"quot".toList, by simp, List.all_eq_true.1 rfl, fun _ => rfl⟩

theorem unescapeFrom_escape (s : List Char) : unescapeFrom total offset (escape s) = .ok s := by
  induction s generalizing offset with
  | nil => rw [escape, List.flatMap_nil, unescapeFrom]
  | cons c s ih =>
    rw [escape, List.flatMap_cons]
    change unescapeFrom total offset (escapeChar c ++ escape s) = _
    rcases escapeChar_cases c with ⟨hc, h⟩ | ⟨name, h, hname, hx⟩
    · rw [h, List.singleton_append, unescapeFrom_char total offset hc, ih]
      rfl
    · rw [h, List.append_assoc, List.singleton_append, unescapeFrom_entity total offset hname hx, ih]
      rfl

end Entities

theorem unescape_escape (s : List Char) : unescape (escape s) = .ok s := unescapeFrom_escape _ _ s

theorem ne_of_mem_escape {s : List Char} {c : Char} (h : c ∈ escape s) :
    c ≠ '<' ∧ c ≠ '>' ∧ c ≠ '"' ∧ c ≠ '\'' := by
  obtain ⟨x, -, hx⟩ := List.mem_flatMap.1 h
  unfold escapeChar at hx
  split at hx
  case h_6 hlt hgt hamp hapos hquot =>
    obtain rfl := List.mem_singleton.1 hx
    exact ⟨hlt, hgt, hquot, hapos⟩
  all_goals
    have hplain := (List.all_eq_true
      (p := fun c => decide (c ≠ '<' ∧ c ≠ '>' ∧ c ≠ '"' ∧ c ≠ '\''))).1 rfl c hx
    exact of_decide_eq_true hplain

theorem escape_ne_nil {s : List Char} (h : s ≠ []) : escape s ≠ [] := by
  obtain ⟨c, s, rfl⟩ := List.exists_cons_of_ne_nil h
  rw [escape, List.flatMap_cons]
  rcases escapeChar_cases c with ⟨-, hc⟩ | ⟨name, hc, -⟩ <;> simp [hc]

/-- A character that ends neither a key nor a tag, and begins no quote. -/
def isPlain (c : Char) : Bool := c != '=' && c != '>' && c != '"' && c != '\'' && !isBlank c

/-- A key that is read as it is written. -/
def PlainName (name : String) : Prop := name ≠ "" ∧ ∀ c ∈ name.toList, isPlain c = true

instance (name : String) : Decidable (PlainName name) :=
  decidable_of_iff ((name != "" && name.toList.all isPlain) = true) (by simp [PlainName])

theorem isPlain_iff {c : Char} : isPlain c = true ↔
    c ≠ '=' ∧ c ≠ '>' ∧ c ≠ '"' ∧ c ≠ '\'' ∧ isBlank c = false := by
  simp [isPlain, and_assoc]

theorem inKey_of_isPlain {c : Char} (h : isPlain c = true) : Tag.inKey c = true := by
  obtain ⟨h, -, -, -, hb⟩ := isPlain_iff.1 h
  simp [Tag.inKey, h, hb]

namespace Tag

variable {total : Nat} {seen : List (List Char × Nat)}

theorem quotedValue_of_ne {q : Char} (hq : q = '"' ∨ q = '\'') {raw : List Char} (h : ∀ c ∈ raw, c ≠ q)
    (rest : List Char) : quotedValue total (q :: raw ++ q :: rest) = .ok (raw, rest) := by
  have hraw : ∀ c ∈ raw, (c != q) = true := fun c hc => by simp [h c hc]
  have hdrop : (raw ++ q :: rest).dropWhile (· != q) = q :: rest := by
    rw [List.dropWhile_append_of_pos hraw, List.dropWhile_cons_of_neg (by simp)]
  have htake : (raw ++ q :: rest).takeWhile (· != q) = raw := by
    rw [List.takeWhile_append_of_pos hraw, List.takeWhile_cons_of_neg (by simp), List.append_nil]
  simp only [List.cons_append, quotedValue, if_pos hq, hdrop, htake]

variable (total) in
theorem newKey_plain {c q : Char} {cs before after : List Char} (hcs : ∀ x ∈ cs, isPlain x = true)
    (hbefore : ∀ x ∈ before, isBlank x = true) (hafter : ∀ x ∈ after, isBlank x = true) (hq : isBlank q = false)
    (hseen : seen.lookup (c :: cs) = none) (rest : List Char) :
    newKey total seen c (cs ++ (before ++ '=' :: (after ++ q :: rest))) = .ok (c :: cs, q :: rest) := by
  have hkey : ∀ x ∈ cs, inKey x = true := fun x hx => inKey_of_isPlain (hcs x hx)
  have hstop : ∀ text, (before ++ '=' :: text).takeWhile inKey = [] ∧
      (before ++ '=' :: text).dropWhile inKey = before ++ '=' :: text := by
    intro text
    cases before with
    | nil => exact ⟨rfl, rfl⟩
    | cons b before =>
      have hb : inKey b = false := by simp [inKey, hbefore b List.mem_cons_self]
      simp [hb]
  have hvalue : (after ++ q :: rest).dropWhile isBlank = q :: rest := by
    rw [List.dropWhile_append_of_pos hafter, List.dropWhile_cons_of_neg (by simp [hq])]
  have hequals : afterEquals total (before ++ '=' :: (after ++ q :: rest)) = .ok (q :: rest) := by
    rw [afterEquals, List.dropWhile_append_of_pos hbefore, List.dropWhile_cons_of_neg (by decide)]
    simp only [hvalue]
  rw [newKey, List.dropWhile_append_of_pos hkey, List.takeWhile_append_of_pos hkey, (hstop _).1, (hstop _).2,
    hequals, List.append_nil]
  simp only [hseen]

theorem attributesFrom_nil : attributesFrom total seen [] = .ok [] := by
  rw [attributesFrom]
  rfl

theorem attributesFrom_step {s rest r r' key raw value : List Char} {c : Char}
    (hs : s.dropWhile isBlank = c :: rest) (hk : newKey total seen c rest = .ok (key, r))
    (hv : quotedValue total r = .ok (raw, r')) (hu : unescape raw = .ok value) :
    attributesFrom total seen s =
      (attributesFrom total ((key, offsetOf total (c :: rest)) :: seen) r').map
        ((String.ofList key, String.ofList value) :: ·) := by
  rw [attributesFrom]
  split
  next h => rw [hs] at h; cases h
  next h =>
    rw [hs] at h
    cases h
    split
    next h => rw [hk] at h; cases h
    next h =>
      rw [hk] at h
      cases h
      split
      next h => rw [hv] at h; cases h
      next h =>
        rw [hv] at h
        cases h
        rw [hu]
        dsimp only
        cases attributesFrom total ((key, offsetOf total (c :: rest)) :: seen) r' <;> rfl

variable (total) in
/-- A written attribute is read first, and what is read after it knows its key. -/
theorem attributesFrom_cons {name : String} (value : String) (hname : PlainName name)
    (hseen : seen.lookup name.toList = none) (rest : List Char) :
    ∃ offset, attributesFrom total seen (Node.attributeText (name, value) ++ rest) =
      (attributesFrom total ((name.toList, offset) :: seen) rest).map ((name, value) :: ·) := by
  obtain ⟨hne, hplain⟩ := hname
  obtain ⟨c, cs, hcs⟩ := List.exists_cons_of_ne_nil (l := name.toList) (by simpa using hne)
  rw [hcs] at hplain hseen ⊢
  have hc : isBlank c = false := (isPlain_iff.1 (hplain c List.mem_cons_self)).2.2.2.2
  have hdrop : (Node.attributeText (name, value) ++ rest).dropWhile isBlank =
      c :: (cs ++ '=' :: ('"' :: escape value.toList ++ '"' :: rest)) := by
    have htext : Node.attributeText (name, value) ++ rest =
        ' ' :: c :: (cs ++ '=' :: ('"' :: escape value.toList ++ '"' :: rest)) := by
      simp [Node.attributeText, hcs]
    rw [htext, List.dropWhile_cons_of_pos (by decide), List.dropWhile_cons_of_neg (by simp [hc])]
  have hnone : ∀ x ∈ ([] : List Char), isBlank x = true := fun x hx => absurd hx List.not_mem_nil
  have hkey := newKey_plain total (fun x hx => hplain x (List.mem_cons_of_mem _ hx)) hnone hnone
    (by decide : isBlank '"' = false) hseen (escape value.toList ++ '"' :: rest)
  have hvalue : ∀ x ∈ escape value.toList, x ≠ '"' := fun x hx => (ne_of_mem_escape hx).2.2.1
  have hstep := attributesFrom_step hdrop hkey (quotedValue_of_ne (.inl rfl) hvalue rest) (unescape_escape _)
  rw [← hcs, String.ofList_toList, String.ofList_toList, hcs] at hstep
  exact ⟨_, hstep⟩

/-- Written attributes are read as the entries that they were written from. -/
theorem attributesFrom_written {attributes : List (String × String)}
    (hplain : ∀ a ∈ attributes, PlainName a.1)
    (hnew : ∀ a ∈ attributes, seen.lookup a.1.toList = none)
    (hnodup : (attributes.map Prod.fst).Nodup) :
    attributesFrom total seen (attributes.flatMap Node.attributeText) = .ok attributes := by
  induction attributes generalizing seen with
  | nil => exact attributesFrom_nil
  | cons a attributes ih =>
    obtain ⟨name, value⟩ := a
    rw [List.map_cons, List.nodup_cons] at hnodup
    obtain ⟨offset, hfirst⟩ := attributesFrom_cons total value
      (hplain _ List.mem_cons_self) (hnew _ List.mem_cons_self)
      (attributes.flatMap Node.attributeText)
    rw [List.flatMap_cons, hfirst, ih (fun a ha => hplain a (List.mem_cons_of_mem _ ha)) ?_ hnodup.2]
    · rfl
    · intro a ha
      have hne : a.1.toList ≠ name.toList := fun h =>
        hnodup.1 (List.mem_map.2 ⟨a, ha, String.toList_inj.1 h⟩)
      rw [List.lookup_cons, beq_false_of_ne hne]
      exact hnew a (List.mem_cons_of_mem _ ha)

end Tag

/-- A tag whose name is a word and whose keys are plain and differ. -/
structure Named (name : String) (attributes : List (String × String)) : Prop where
  ne : name ≠ ""
  alpha : ∀ c ∈ name.toList, c.isAlpha = true
  plain : ∀ a ∈ attributes, PlainName a.1
  nodup : (attributes.map Prod.fst).Nodup

theorem isPlain_of_isAlpha {c : Char} (h : c.isAlpha = true) : isPlain c = true ∧ c ≠ '/' := by
  refine ⟨isPlain_iff.2 ⟨?_, ?_, ?_, ?_, ?_⟩, ?_⟩
  case refine_5 =>
    rw [Bool.eq_false_iff]
    intro hb
    simp only [isBlank, Bool.or_eq_true, beq_iff_eq] at hb
    rcases hb with ((rfl | rfl) | rfl) | rfl <;> revert h <;> decide
  all_goals
    rintro rfl
    revert h
    decide

namespace Named

variable {name : String} {attributes : List (String × String)} (h : Named name attributes)

include h

theorem not_isBlank {c : Char} (hc : c ∈ name.toList) : isBlank c = false :=
  (isPlain_iff.1 (isPlain_of_isAlpha (h.alpha c hc)).1).2.2.2.2

theorem name_tag : Tag.nameChars ⟨Node.tagText name attributes⟩ = name.toList := by
  have hname : ∀ c ∈ name.toList, (!isBlank c) = true := fun c hc => by simp [h.not_isBlank hc]
  rw [Tag.nameChars, Node.tagText, List.takeWhile_append_of_pos hname]
  cases attributes with
  | nil => simp
  | cons a attributes => simp [Node.attributeText, isBlank]

theorem attributes_tag :
    Tag.attributes ⟨Node.tagText name attributes⟩ = .ok (.ofList attributes) := by
  have hname : ∀ c ∈ name.toList, (!isBlank c) = true := fun c hc => by simp [h.not_isBlank hc]
  have hdrop : (Node.tagText name attributes).dropWhile (!isBlank ·) =
      attributes.flatMap Node.attributeText := by
    rw [Node.tagText, List.dropWhile_append_of_pos hname]
    cases attributes with
    | nil => rfl
    | cons a attributes => simp [Node.attributeText, isBlank]
  rw [Tag.attributes, hdrop, Tag.attributesFrom_written h.plain (fun _ _ => rfl) h.nodup]
  rfl

end Named

end ScopeBlocks.Xml
