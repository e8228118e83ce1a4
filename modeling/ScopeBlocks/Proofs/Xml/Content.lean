import ScopeBlocks.Proofs.Xml.Places

/-! Well-formed content of documents: text, comments, processing instructions, character data sections and whole
elements. Its tags are read as tags whatever their attributes hold, and their attributes are read without an error. -/
namespace ScopeBlocks.Xml

/-! References. -/

/-- The number that digits stand for behind others that stand for a number. -/
def numeral (radix : Nat) : Nat → List Char → Option Nat
  | n, [] => some n
  | n, c :: rest => ((Json.hexValue? c).filter (· < radix)).bind fun d => numeral radix (n * radix + d) rest

/-- Digits that stand for the number of a character. -/
def IsCode (radix : Nat) (digits : List Char) : Prop :=
  ∃ n, numeral radix 0 digits = some n ∧ n ≠ 0 ∧ n.isValidChar

/-- What may stand between an ampersand and a semicolon: one of five names, or the number of a character. -/
inductive IsReference : List Char → Prop
  | named {name : List Char} : (named? name).isSome = true → IsReference name
  | decimal {digits : List Char} : IsCode 10 digits → IsReference ('#' :: digits)
  | hexadecimal {digits : List Char} : IsCode 16 digits → IsReference ('#' :: 'x' :: digits)

/-- Text in which every ampersand begins a reference. -/
inductive Referring : List Char → Prop
  | nil : Referring []
  | char {c : Char} {s : List Char} : c ≠ '&' → Referring s → Referring (c :: s)
  | reference {name s : List Char} : IsReference name → Referring s → Referring ('&' :: name ++ ';' :: s)

theorem le_of_numeral {radix n m : Nat} (hradix : 0 < radix) {digits : List Char}
    (h : numeral radix n digits = some m) : n ≤ m := by
  induction digits generalizing n with
  | nil => exact Nat.le_of_eq (Option.some.inj h)
  | cons c digits ih =>
    obtain ⟨d, -, h⟩ := Option.bind_eq_some_iff.1 h
    calc n ≤ n * radix := Nat.le_mul_of_pos_right n hradix
      _ ≤ n * radix + d := Nat.le_add_right _ d
      _ ≤ m := ih h

theorem readCode_of_numeral {radix n m : Nat} (hradix : 0 < radix) (hm : m < Word.shortLimit) {digits : List Char}
    (h : numeral radix n digits = some m) : readCode radix n digits = .ok m := by
  induction digits generalizing n with
  | nil => exact congrArg Except.ok (Option.some.inj h)
  | cons c digits ih =>
    obtain ⟨d, hd, h⟩ := Option.bind_eq_some_iff.1 h
    have hfits : n * radix + d < Word.shortLimit := Nat.lt_of_le_of_lt (le_of_numeral hradix h) hm
    rw [readCode, hd]
    simp only [if_pos hfits, ih h]

theorem hexValue?_of_numeral {radix n m : Nat} {digits : List Char} (h : numeral radix n digits = some m) :
    ∀ c ∈ digits, ∃ d, Json.hexValue? c = some d := by
  induction digits generalizing n with
  | nil => exact fun c hc => absurd hc List.not_mem_nil
  | cons c digits ih =>
    obtain ⟨d, hd, h⟩ := Option.bind_eq_some_iff.1 h
    intro x hx
    rcases List.mem_cons.1 hx with rfl | hx
    · exact ⟨d, (Option.filter_eq_some_iff.1 hd).1⟩
    · exact ih h x hx

theorem inEntity_of_hexValue? {c : Char} {d : Nat} (h : Json.hexValue? c = some d) : inEntity c = true := by
  rw [inEntity, Bool.and_eq_true, bne_iff_ne, bne_iff_ne]
  constructor <;> rintro rfl <;> cases h

section

variable {radix : Nat} {digits : List Char} (h : IsCode radix digits)

include h

theorem IsCode.inEntity : ∀ c ∈ digits, inEntity c = true := by
  obtain ⟨n, hn, -⟩ := h
  exact fun c hc => (hexValue?_of_numeral hn c hc).elim fun _ => inEntity_of_hexValue?

theorem IsCode.head : ∃ c rest, digits = c :: rest ∧ c ≠ 'x' ∧ c ≠ '+' ∧ c ≠ '-' := by
  obtain ⟨n, hn, hzero, -⟩ := h
  cases digits with
  | nil => exact absurd (Option.some.inj hn).symm hzero
  | cons c rest =>
    obtain ⟨d, hd⟩ := hexValue?_of_numeral hn c List.mem_cons_self
    refine ⟨c, rest, rfl, ?_, ?_, ?_⟩ <;> rintro rfl <;> cases hd

theorem IsCode.resolves {body : List Char} (hradix : 0 < radix)
    (hcode : characterCode body = readCode radix 0 digits) : ∃ x, ∀ offset, resolve offset ('#' :: body) = .ok x := by
  obtain ⟨n, hn, hzero, hvalid⟩ := h
  have hfits : n < Word.shortLimit := by
    rcases hvalid with h | ⟨-, h⟩ <;> exact Nat.lt_trans h (by decide)
  have hcharacter : character body = .ok (Char.ofNat n) := by
    rw [character, hcode, readCode_of_numeral hradix hfits hn]
    simp only [bind, Except.bind, if_neg hzero]
    exact if_pos hvalid
  exact ⟨Char.ofNat n, fun offset => by rw [resolve, hcharacter]; rfl⟩

end

theorem characterCode_decimal {digits : List Char} (h : IsCode 10 digits) :
    characterCode digits = readCode 10 0 digits := by
  obtain ⟨c, rest, rfl, hmark, hplus, hminus⟩ := h.head
  simp [characterCode, hmark, hplus, hminus]

theorem characterCode_hexadecimal {digits : List Char} (h : IsCode 16 digits) :
    characterCode ('x' :: digits) = readCode 16 0 digits := by
  obtain ⟨c, rest, rfl, -, hplus, hminus⟩ := h.head
  simp [characterCode, hplus, hminus]

/-- A reference stands for a character. -/
theorem IsReference.resolves {name : List Char} (h : IsReference name) :
    (∀ c ∈ name, inEntity c = true) ∧ ∃ x, ∀ offset, resolve offset name = .ok x := by
  cases h with
  | named h =>
    obtain ⟨x, hx⟩ := Option.isSome_iff_exists.1 h
    have hplain : (∀ c ∈ name, inEntity c = true) ∧ '#' ∉ name := by
      unfold named? at hx
      split at hx
      case h_6 => cases hx
      all_goals exact ⟨List.all_eq_true.1 (by decide), by decide⟩
    refine ⟨hplain.1, x, fun offset => ?_⟩
    unfold resolve
    split
    next => exact absurd List.mem_cons_self hplain.2
    next => rw [hx]
  | decimal h =>
    exact ⟨List.forall_mem_cons.2 ⟨rfl, h.inEntity⟩, h.resolves (by decide) (characterCode_decimal h)⟩
  | hexadecimal h =>
    exact ⟨List.forall_mem_cons.2 ⟨rfl, List.forall_mem_cons.2 ⟨rfl, h.inEntity⟩⟩,
      h.resolves (by decide) (characterCode_hexadecimal h)⟩

/-- What a text with references stands for. -/
inductive Denotes : List Char → List Char → Prop
  | nil : Denotes [] []
  | char {c : Char} {s text : List Char} : c ≠ '&' → Denotes s text → Denotes (c :: s) (c :: text)
  | reference {name s text : List Char} {x : Char} : (∀ c ∈ name, inEntity c = true) →
    (∀ offset, resolve offset name = .ok x) → Denotes s text → Denotes ('&' :: name ++ ';' :: s) (x :: text)

theorem Referring.denotes {s : List Char} (h : Referring s) : ∃ text, Denotes s text := by
  induction h with
  | nil => exact ⟨[], .nil⟩
  | char hc _ ih => exact ih.elim fun text htext => ⟨_, htext.char hc⟩
  | reference hname _ ih =>
    obtain ⟨hin, x, hx⟩ := hname.resolves
    exact ih.elim fun text htext => ⟨_, htext.reference hin hx⟩

theorem Denotes.unescapeFrom {s text : List Char} (h : Denotes s text) (total offset : Nat) :
    unescapeFrom total offset s = .ok text := by
  induction h generalizing offset with
  | nil => rw [Xml.unescapeFrom]
  | char hc _ ih => rw [unescapeFrom_char _ _ hc, ih]; rfl
  | reference hin hx _ ih => rw [unescapeFrom_entity _ _ hin hx, ih]; rfl

theorem resolve_ok {offset : Nat} {name : List Char} {x : Char} (h : resolve offset name = .ok x) (offset' : Nat) :
    resolve offset' name = .ok x := by
  unfold resolve at h ⊢
  split at h
  next => exact h
  next =>
    split at h
    next => exact h
    next => cases h

theorem denotes_of_unescapeFrom {total offset : Nat} {s text : List Char}
    (h : unescapeFrom total offset s = .ok text) : Denotes s text := by
  fun_induction unescapeFrom total offset s generalizing text with
  | case1 => cases h; exact .nil
  | case2 offset rest after hafter name =>
    rename_i ih
    have hrest : rest = name ++ ';' :: after := by
      rw [← hafter, List.takeWhile_append_dropWhile]
    have hin : ∀ c ∈ name, inEntity c = true := fun c hc => List.all_eq_true.1 List.all_takeWhile c hc
    cases hx : resolve (offset + 1) name with
    | error e => rw [hx] at h; cases h
    | ok x =>
      rw [hx] at h
      cases hmore : unescapeFrom total (offset + Text.byteLength name + 2) after with
      | error e => simp only [bind, Except.bind, hmore] at h; cases h
      | ok more =>
        simp only [bind, Except.bind, hmore] at h
        cases h
        rw [hrest]
        exact (ih hmore).reference hin (resolve_ok hx)
  | case3 => cases h
  | case4 offset c rest hc ih =>
    cases hmore : unescapeFrom total (offset + c.utf8Size) rest with
    | error e => rw [hmore] at h; cases h
    | ok more =>
      rw [hmore] at h
      cases h
      exact (ih hmore).char hc

/-- Whether no reference in a text goes beyond its end. -/
def Closed (s : List Char) : Prop := ∀ before after, s = before ++ '&' :: after → ';' ∈ after

theorem Closed.of_append {s t : List Char} (h : Closed (s ++ t)) : Closed t := fun before after heq =>
  h (s ++ before) after (by rw [heq, List.append_assoc])

theorem Denotes.split {run more text : List Char} (h : Denotes (run ++ more) text) (hrun : Closed run) :
    ∃ first second, Denotes run first ∧ Denotes more second ∧ text = first ++ second := by
  generalize hwhole : run ++ more = s at h
  induction h generalizing run with
  | nil =>
    obtain ⟨rfl, rfl⟩ := List.append_eq_nil_iff.1 hwhole
    exact ⟨[], [], .nil, .nil, rfl⟩
  | @char c s text hc h ih =>
    cases run with
    | nil =>
      obtain rfl : more = c :: s := hwhole
      exact ⟨[], c :: text, .nil, h.char hc, rfl⟩
    | cons d run =>
      obtain ⟨rfl, rfl⟩ := List.cons.inj hwhole
      obtain ⟨first, second, hfirst, hsecond, rfl⟩ := ih (hrun.of_append (s := [d])) rfl
      exact ⟨d :: first, second, hfirst.char hc, hsecond, rfl⟩
  | @reference name s text x hin hx h ih =>
    cases run with
    | nil =>
      obtain rfl : more = '&' :: name ++ ';' :: s := hwhole
      exact ⟨[], x :: text, .nil, h.reference hin hx, rfl⟩
    | cons d run =>
      obtain ⟨rfl, hrest⟩ := List.cons.inj hwhole
      have hsemicolon : ';' ∉ name := fun hmem => absurd (hin _ hmem) (by decide)
      -- the reference begins in the run and ends in it, since it does not go beyond its end
      have hends : ';' ∈ run := hrun [] run rfl
      rcases List.append_eq_append_iff.1 hrest with ⟨tail, rfl, -⟩ | ⟨tail, rfl, htail⟩
      · exact absurd (List.mem_append_left tail hends) hsemicolon
      · cases tail with
        | nil => exact absurd (by simpa using hends) hsemicolon
        | cons e tail =>
          obtain ⟨rfl, rfl⟩ := List.cons.inj htail
          have htail : Closed tail := Closed.of_append (s := '&' :: name ++ [';']) (by simpa using hrun)
          obtain ⟨first, second, hfirst, hsecond, rfl⟩ := ih htail rfl
          exact ⟨x :: first, second, hfirst.reference hin hx, hsecond, rfl⟩

/-! Tags. -/

def Blank (s : List Char) : Prop := ∀ c ∈ s, isBlank c = true

instance (s : List Char) : Decidable (Blank s) := decidable_of_iff (s.all isBlank = true) List.all_eq_true

def IsName (name : List Char) : Prop :=
  name ≠ [] ∧ ∀ c ∈ name, isPlain c = true ∧ c ≠ '/' ∧ c ≠ '?' ∧ c ≠ '!'

instance (name : List Char) : Decidable (IsName name) :=
  @instDecidableAnd _ _ inferInstance (List.decidableBAll _ name)

/-- Attributes whose keys differ from one another and from some others. -/
inductive AttributeList : List (List Char) → List Char → Prop
  | blank {keys : List (List Char)} {blanks : List Char} : Blank blanks → AttributeList keys blanks
  | entry {keys : List (List Char)} {blanks key before after raw rest : List Char} {q : Char} :
    blanks ≠ [] → Blank blanks → IsName key → key ∉ keys → Blank before → Blank after → q = '"' ∨ q = '\'' →
      (∀ c ∈ raw, c ≠ q) → Referring raw → AttributeList (key :: keys) rest →
        AttributeList keys (blanks ++ key ++ (before ++ '=' :: after) ++ (q :: raw ++ [q]) ++ rest)

/-- The content of a tag, whether it opens an element or is a whole one. -/
inductive TagOf : List Char → List Char → Prop
  | mk {name attributes : List Char} : IsName name → AttributeList [] attributes → TagOf name (name ++ attributes)

theorem inside_of_blank {s : List Char} (h : Blank s) : Event.Inside s := Event.inside_of_unquoted fun c hc => by
  have hc := h c hc
  refine ⟨?_, ?_, ?_⟩ <;> rintro rfl <;> revert hc <;> decide

theorem IsName.inside {name : List Char} (h : IsName name) : Event.Inside name :=
  Event.inside_of_isPlain fun c hc => (h.2 c hc).1

theorem IsName.not_isBlank {name : List Char} (h : IsName name) : ∀ c ∈ name, isBlank c = false := fun c hc =>
  (isPlain_iff.1 (h.2 c hc).1).2.2.2.2

namespace AttributeList

variable {keys : List (List Char)} {s : List Char}

theorem inside (h : AttributeList keys s) : Event.Inside s := by
  have hequals : Event.Inside ['='] := by decide
  induction h with
  | blank hblanks => exact inside_of_blank hblanks
  | @entry _ _ _ before after _ _ _ _ hblanks hkey _ hbefore hafter hq hraw _ _ ih =>
    have hsign : Event.Inside (before ++ '=' :: after) :=
      (inside_of_blank hbefore).append (hequals.append (inside_of_blank hafter))
    have hentry := (((inside_of_blank hblanks).append hkey.inside).append hsign).append (Event.inside_quoted hq hraw)
    exact hentry.append ih

theorem getLast?_ne (h : AttributeList keys s) : s.getLast? ≠ some '/' := by
  induction h with
  | blank hblanks =>
    intro hlast
    exact absurd (hblanks _ (List.mem_of_getLast? hlast)) (by decide)
  | @entry _ _ _ _ _ _ rest q _ _ _ _ _ _ hq _ _ _ ih =>
    intro hlast
    rw [List.getLast?_append, List.getLast?_append, List.getLast?_concat] at hlast
    cases hrest : rest.getLast? with
    | some c => rw [hrest, Option.some_or] at hlast; exact ih (hrest.trans hlast)
    | none =>
      rw [hrest] at hlast
      obtain rfl : q = '/' := Option.some.inj hlast
      exact absurd hq (by decide)

theorem head_isBlank (h : AttributeList keys s) : ∀ c ∈ s.head?, isBlank c = true := by
  cases h with
  | blank hblanks => exact fun c hc => hblanks c (List.mem_of_head? hc)
  | @entry _ blanks _ _ _ _ _ _ hne hblanks =>
    obtain ⟨b, blanks, rfl⟩ := List.exists_cons_of_ne_nil hne
    rintro c ⟨⟩
    exact hblanks b List.mem_cons_self

theorem attributesFrom (h : AttributeList keys s) (total : Nat) {seen : List (List Char × Nat)}
    (hseen : ∀ key, key ∉ keys → seen.lookup key = none) : ∃ pairs, Tag.attributesFrom total seen s = .ok pairs := by
  induction h generalizing seen with
  | blank hblanks =>
    refine ⟨[], ?_⟩
    have hdrop : _ = List.dropWhile isBlank [] := List.dropWhile_append_of_pos hblanks
    rw [List.append_nil] at hdrop
    rw [Tag.attributesFrom]
    split
    next => rfl
    next h => rw [hdrop] at h; cases h
  | @entry keys blanks key before after raw rest q _ hblanks hkey hnew hbefore hafter hq hraw href _ ih =>
    obtain ⟨c, cs, rfl⟩ := List.exists_cons_of_ne_nil hkey.1
    have hc : isBlank c = false := hkey.not_isBlank c List.mem_cons_self
    have hquote : isBlank q = false := by rcases hq with rfl | rfl <;> rfl
    have hdrop : (blanks ++ c :: cs ++ (before ++ '=' :: after) ++ (q :: raw ++ [q]) ++ rest).dropWhile isBlank =
        c :: (cs ++ (before ++ '=' :: (after ++ q :: (raw ++ q :: rest)))) := by
      rw [List.append_assoc, List.append_assoc, List.append_assoc, List.dropWhile_append_of_pos hblanks]
      simp [hc]
    have hread := Tag.newKey_plain total (fun x hx => (hkey.2 x (List.mem_cons_of_mem _ hx)).1) hbefore hafter hquote
      (hseen _ hnew) (raw ++ q :: rest)
    obtain ⟨value, hvalue⟩ := href.denotes
    rw [Tag.attributesFrom_step hdrop hread (Tag.quotedValue_of_ne hq hraw rest) (hvalue.unescapeFrom _ 0)]
    have hseen' (offset : Nat) :
        ∀ key, key ∉ (c :: cs) :: keys → List.lookup key ((c :: cs, offset) :: seen) = none := by
      intro key hkey
      rw [List.mem_cons, not_or] at hkey
      rw [List.lookup_cons, beq_false_of_ne hkey.1]
      exact hseen key hkey.2
    obtain ⟨pairs, hpairs⟩ := ih (hseen' _)
    exact ⟨_, by rw [hpairs]; rfl⟩

end AttributeList

namespace TagOf

variable {name tag : List Char} (h : TagOf name tag)

include h

theorem cut : ∃ attributes, tag = name ++ attributes ∧ IsName name ∧ AttributeList [] attributes ∧
    Tag.nameChars ⟨tag⟩ = name ∧ tag.dropWhile (!isBlank ·) = attributes := by
  obtain ⟨hname, hattributes⟩ := h
  rename_i attributes
  have hword : ∀ c ∈ name, (!isBlank c) = true := fun c hc => by simp [hname.not_isBlank c hc]
  have hblank := hattributes.head_isBlank
  refine ⟨attributes, rfl, hname, hattributes, ?_, ?_⟩
  · rw [Tag.nameChars, List.takeWhile_append_of_pos hword]
    cases attributes with
    | nil => exact List.append_nil _
    | cons c attributes => simp [hblank c rfl]
  · rw [List.dropWhile_append_of_pos hword]
    cases attributes with
    | nil => rfl
    | cons c attributes => simp [hblank c rfl]

theorem nameChars : Tag.nameChars ⟨tag⟩ = name := by
  obtain ⟨attributes, -, -, -, hname, -⟩ := h.cut
  exact hname

theorem isName : IsName name := by
  obtain ⟨attributes, -, hname, -⟩ := h.cut
  exact hname

theorem isTag : IsTag tag := by
  obtain ⟨attributes, htag, hname, hattributes, hchars, -⟩ := h.cut
  refine ⟨?_, ?_, ?_, ?_⟩
  · obtain ⟨c, cs, rfl⟩ := List.exists_cons_of_ne_nil hname.1
    exact ⟨c, by rw [htag]; rfl, (hname.2 c List.mem_cons_self).2⟩
  · exact htag ▸ hname.inside.append hattributes.inside
  · rw [htag, List.getLast?_append]
    cases hlast : attributes.getLast? with
    | some c =>
      rw [Option.some_or, ← hlast]
      exact hattributes.getLast?_ne
    | none =>
      intro hslash
      exact (hname.2 _ (List.mem_of_getLast? hslash)).2.1 rfl
  · exact hchars.symm ▸ hname.inside

theorem attributes : ∃ a, Tag.attributes ⟨tag⟩ = .ok a := by
  obtain ⟨attributes, -, -, hattributes, -, hdrop⟩ := h.cut
  have hnone : ∀ key, key ∉ [] → ([] : List (List Char × Nat)).lookup key = none := fun _ _ => rfl
  obtain ⟨pairs, hpairs⟩ := hattributes.attributesFrom (Text.byteLength tag) hnone
  exact ⟨.ofList pairs, by rw [Tag.attributes, hdrop, hpairs]; rfl⟩

end TagOf

/-! Content. -/

/-- Whether a mark that stands behind a text begins nowhere before its end. -/
def OnlyAtEnd (mark text : List Char) : Prop := ∀ n < text.length, ¬mark <+: (text ++ mark).drop n

instance (mark text : List Char) : Decidable (OnlyAtEnd mark text) :=
  inferInstanceAs (Decidable (∀ n < text.length, ¬mark <+: (text ++ mark).drop n))

/-- Markup beside the elements, with the event that it is. -/
inductive Aside : Event → List Char → Prop
  | comment {body : List Char} : OnlyAtEnd "-->".toList body → Aside .other ("<!--".toList ++ body ++ "-->".toList)
  | instruction {body : List Char} : body.head? ≠ some '>' → OnlyAtEnd "?>".toList body →
    Aside .other ("<?".toList ++ body ++ "?>".toList)
  | cdata {body : List Char} : OnlyAtEnd "]]>".toList body →
    Aside (.cdata body) ("<![CDATA[".toList ++ body ++ "]]>".toList)

/-- What may stand between the tags of an element. -/
inductive Content : List Char → Prop
  | nil : Content []
  | char {c : Char} {s : List Char} : c ≠ '<' → Content s → Content (c :: s)
  | aside {e : Event} {a s : List Char} : Aside e a → Content s → Content (a ++ s)
  | empty {name tag s : List Char} : TagOf name tag → Content s → Content ('<' :: tag ++ "/>".toList ++ s)
  | paired {name tag inner blanks s : List Char} : TagOf name tag → Content inner → Blank blanks → Content s →
    Content ('<' :: tag ++ '>' :: inner ++ "</".toList ++ name ++ blanks ++ '>' :: s)

/-- A whole element. -/
inductive Element : List Char → List Char → Prop
  | empty {name tag : List Char} : TagOf name tag → Element name ('<' :: tag ++ "/>".toList)
  | paired {name tag inner blanks : List Char} : TagOf name tag → Content inner → Blank blanks →
    Element name ('<' :: tag ++ '>' :: inner ++ "</".toList ++ name ++ blanks ++ ['>'])

theorem OnlyAtEnd.cut? {mark text : List Char} (h : OnlyAtEnd mark text) (hne : mark ≠ []) (rest : List Char) :
    Text.cut? mark (text ++ mark ++ rest) = some (text, rest) := by
  have hwhole : Text.cut? mark (text ++ mark) = some (text, []) := by
    induction text with
    | nil =>
      obtain ⟨c, cs, rfl⟩ := List.exists_cons_of_ne_nil hne
      simp [Text.cut?]
    | cons c text ih =>
      have hfirst : ¬mark.isPrefixOf (c :: (text ++ mark)) = true := by
        rw [List.isPrefixOf_iff_prefix]
        exact h 0 (Nat.succ_pos _)
      have hrest : OnlyAtEnd mark text := fun n hn => h (n + 1) (Nat.succ_lt_succ hn)
      rw [List.cons_append, Text.cut?, if_neg hfirst, ih hrest]
      rfl
  exact Text.cut?_append hne hwhole rest

theorem after?_start (start s : List Char) : Text.after? start (start ++ s) = some s := by
  rw [Text.after?, if_pos (List.isPrefixOf_iff_prefix.2 (List.prefix_append start s)), List.drop_left]

theorem Aside.markup {e : Event} {a : List Char} (h : Aside e a) : ∃ piece, a = '<' :: piece ∧
    ∀ opened rest, Event.markup opened (piece ++ rest) = .ok (e, opened, rest) := by
  cases h with
  | @comment body hbody =>
    refine ⟨"!--".toList ++ (body ++ "-->".toList), rfl, fun opened rest => ?_⟩
    have hafter := after?_start "--".toList (body ++ "-->".toList ++ rest)
    have hcut := hbody.cut? (by decide) rest
    change Event.declaration opened ("--".toList ++ (body ++ "-->".toList ++ rest)) = _
    simp only [Event.declaration, hafter, Option.bind_some, hcut]
    rfl
  | @instruction body hhead hbody =>
    refine ⟨'?' :: (body ++ "?>".toList), rfl, fun opened rest => ?_⟩
    have hcut := hbody.cut? (by decide) rest
    have hopen : ∀ tail, body ++ "?>".toList ++ rest = '>' :: tail → False := by
      intro tail heq
      cases body with
      | nil => exact absurd (List.cons.inj heq).1 (by decide)
      | cons c body => exact hhead (congrArg some (List.cons.inj heq).1)
    change Event.instruction opened (body ++ "?>".toList ++ rest) = _
    rw [Event.instruction.eq_2 _ _ hopen, hcut]
  | @cdata body hbody =>
    refine ⟨"![CDATA[".toList ++ (body ++ "]]>".toList), rfl, fun opened rest => ?_⟩
    have hafter := after?_start "[CDATA[".toList (body ++ "]]>".toList ++ rest)
    have hcut := hbody.cut? (by decide) rest
    change Event.declaration opened ("[CDATA[".toList ++ (body ++ "]]>".toList ++ rest)) = _
    simp only [Event.declaration, hafter, Option.bind_some, hcut]
    rfl

theorem Aside.head? {e : Event} {a : List Char} (h : Aside e a) : a.head? = some '<' := by
  cases h <;> rfl

theorem Element.head? {name element : List Char} (h : Element name element) : element.head? = some '<' := by
  cases h <;> simp

end ScopeBlocks.Xml
