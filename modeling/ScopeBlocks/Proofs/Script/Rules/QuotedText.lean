import ScopeBlocks.Proofs.Script.Rules.Expressions

/-! The rule for texts between quotes, character by character. It takes what the scanner takes for a text,
and from a quotation with anything after it exactly the quotation. -/
namespace ScopeBlocks.Script

/-- What a rule of one token consists of. -/
inductive Pattern where
  | char (c : Char)
  | any
  /-- Takes nothing, where another pattern does not fit. -/
  | absent (p : Pattern)
  | seq (first second : Pattern)
  | either (first second : Pattern)
  | many (p : Pattern)

namespace Pattern

/-- Escaped characters and others that neither end the text nor begin an escape. -/
def between (q : Char) : Pattern :=
  .many (.either (.seq (.char '\\') .any) (.seq (.absent (.either (.char q) (.char '\\'))) .any))

def inQuotes (q : Char) : Pattern := .seq (.char q) (.seq (between q) (.char q))

def string : Pattern := .either (inQuotes '"') (inQuotes '\'')

/-- How a pattern fits at the head of a text: what it takes and what it leaves, or not at all. Of two
alternatives the first one counts that fits, and what repeats does so as often as it fits. -/
inductive Takes : Pattern → List Char → Option (List Char × List Char) → Prop
  | char {c : Char} {s : List Char} : Takes (.char c) (c :: s) (some ([c], s))
  | noChar {c : Char} {s : List Char} (h : s.head? ≠ some c) : Takes (.char c) s none
  | any {c : Char} {s : List Char} : Takes .any (c :: s) (some ([c], s))
  | noAny : Takes .any [] none
  | absent {p : Pattern} {s : List Char} (h : Takes p s none) : Takes (.absent p) s (some ([], s))
  | present {p : Pattern} {s t r : List Char} (h : Takes p s (some (t, r))) :
      Takes (.absent p) s none
  | seq {p q : Pattern} {s t mid u r : List Char} (first : Takes p s (some (t, mid)))
      (second : Takes q mid (some (u, r))) : Takes (.seq p q) s (some (t ++ u, r))
  | noFirst {p q : Pattern} {s : List Char} (h : Takes p s none) : Takes (.seq p q) s none
  | noSecond {p q : Pattern} {s t mid : List Char} (first : Takes p s (some (t, mid)))
      (h : Takes q mid none) : Takes (.seq p q) s none
  | left {p q : Pattern} {s t r : List Char} (h : Takes p s (some (t, r))) :
      Takes (.either p q) s (some (t, r))
  | right {p q : Pattern} {s : List Char} {o : Option (List Char × List Char)} (left : Takes p s none)
      (h : Takes q s o) : Takes (.either p q) s o
  | stop {p : Pattern} {s : List Char} (h : Takes p s none) : Takes (.many p) s (some ([], s))
  | more {p : Pattern} {s t mid u r : List Char} (h : Takes p s (some (t, mid)))
      (again : Takes (.many p) mid (some (u, r))) : Takes (.many p) s (some (t ++ u, r))

variable {p : Pattern} {q c : Char} {s taken raw rest : List Char}

/-- A pattern fits in one way only. -/
theorem Takes.unique {o o' : Option (List Char × List Char)} (h : Takes p s o) (h' : Takes p s o') :
    o = o' := by
  induction h generalizing o' with
  | char | noChar | any | noAny =>
    cases h' <;> simp_all
  | absent _ ih =>
    cases h' with
    | absent => rfl
    | present h' => cases ih h'
  | present _ ih =>
    cases h' with
    | absent h' => cases ih h'
    | present => rfl
  | noFirst _ ih =>
    cases h' with
    | noFirst => rfl
    | seq first _ | noSecond first _ => cases ih first
  | seq _ _ ih₁ ih₂ =>
    cases h' with
    | noFirst h' => cases ih₁ h'
    | seq first second =>
      cases ih₁ first
      cases ih₂ second
      rfl
    | noSecond first h' =>
      cases ih₁ first
      cases ih₂ h'
  | noSecond _ _ ih₁ ih₂ =>
    cases h' with
    | noFirst | noSecond => rfl
    | seq first second =>
      cases ih₁ first
      cases ih₂ second
  | left _ ih =>
    cases h' with
    | left h' => exact ih h'
    | right left _ => cases ih left
  | right _ _ ih₁ ih₂ =>
    cases h' with
    | left h' => cases ih₁ h'
    | right _ h' => exact ih₂ h'
  | stop _ ih =>
    cases h' with
    | stop => rfl
    | more h' _ => cases ih h'
  | more _ _ ih₁ ih₂ =>
    cases h' with
    | stop h' => cases ih₁ h'
    | more h' again =>
      cases ih₁ h'
      cases ih₂ again
      rfl

theorem Takes.iff {o : Option (List Char × List Char)} (h : Takes p s o)
    (o' : Option (List Char × List Char)) : Takes p s o' ↔ o' = o := by
  constructor
  · intro h'
    exact h'.unique h
  · rintro rfl
    exact h

theorem between_escaped (h : Takes (between q) s (some (raw, rest))) :
    Takes (between q) ('\\' :: c :: s) (some ('\\' :: c :: raw, rest)) :=
  .more (.left (.seq .char .any)) h

theorem between_plain (hq : c ≠ q) (hb : c ≠ '\\') (h : Takes (between q) s (some (raw, rest))) :
    Takes (between q) (c :: s) (some (c :: raw, rest)) := by
  have hslash : Takes (.char '\\') (c :: s) none := .noChar (by simpa using hb)
  have hquote : Takes (.char q) (c :: s) none := .noChar (by simpa using hq)
  exact .more (.right (.noFirst hslash) (.seq (.absent (.right hquote hslash)) .any)) h

theorem between_quote (hq : q ≠ '\\') : Takes (between q) (q :: s) (some ([], q :: s)) :=
  .stop (.right (.noFirst (.noChar (by simpa using hq))) (.noFirst (.present (.left .char))))

theorem between_nil : Takes (between q) [] (some ([], [])) := by
  have none (c : Char) : Takes (.char c) [] none := .noChar (by rintro ⟨⟩)
  exact .stop (.right (.noFirst (none _)) (.noSecond (.absent (.right (none _) (none _))) .noAny))

theorem between_slash (hq : q ≠ '\\') : Takes (between q) ['\\'] (some ([], ['\\'])) := by
  have hquote : Takes (.char q) ['\\'] none := .noChar (by simpa using hq.symm)
  exact .stop (.right (.noSecond .char .noAny) (.noFirst (.present (.right hquote .char))))

theorem between_takes (hq : q ≠ '\\') (s : List Char) :
    (∀ raw rest, Text.closeQuote? q s = some (raw, rest) → Takes (between q) s (some (raw, q :: rest))) ∧
    (Text.closeQuote? q s = none →
      ∃ raw rest, Takes (between q) s (some (raw, rest)) ∧ rest.head? ≠ some q) := by
  fun_induction Text.closeQuote? q s with
  | case1 => exact ⟨by rintro _ _ ⟨⟩, fun _ => ⟨[], [], between_nil, by rintro ⟨⟩⟩⟩
  | case2 =>
    exact ⟨by rintro _ _ ⟨⟩, fun _ => ⟨[], ['\\'], between_slash hq, by simpa using hq.symm⟩⟩
  | case3 c s ih =>
    constructor
    · intro raw rest h
      obtain ⟨⟨raw, rest⟩, h, ⟨⟩⟩ := Option.map_eq_some_iff.1 h
      exact between_escaped (ih.1 _ _ h)
    · intro h
      obtain ⟨raw, rest, h, hrest⟩ := ih.2 (Option.map_eq_none_iff.1 h)
      exact ⟨_, rest, between_escaped h, hrest⟩
  | case4 =>
    refine ⟨?_, by rintro ⟨⟩⟩
    rintro _ _ ⟨⟩
    exact between_quote hq
  | case5 c s hone hmore hc ih =>
    have hb : c ≠ '\\' := by
      rintro rfl
      cases s with
      | nil => exact hone rfl rfl
      | cons d s => exact hmore d s rfl rfl
    constructor
    · intro raw rest h
      obtain ⟨⟨raw, rest⟩, h, ⟨⟩⟩ := Option.map_eq_some_iff.1 h
      exact between_plain hc hb (ih.1 _ _ h)
    · intro h
      obtain ⟨raw, rest, h, hrest⟩ := ih.2 (Option.map_eq_none_iff.1 h)
      exact ⟨_, rest, between_plain hc hb h, hrest⟩

theorem inQuotes_takes (hq : q ≠ '\\') (s : List Char) : Takes (inQuotes q) (q :: s)
    ((Text.closeQuote? q s).map fun (raw, rest) => (q :: raw ++ [q], rest)) := by
  obtain ⟨hsome, hnone⟩ := between_takes hq s
  cases h : Text.closeQuote? q s with
  | none =>
    obtain ⟨raw, rest, htakes, hrest⟩ := hnone h
    exact .noSecond .char (.noSecond htakes (.noChar hrest))
  | some found =>
    have htakes := Takes.seq (Takes.char (c := q)) (.seq (hsome _ _ h) .char)
    exact htakes

theorem inQuotes_none (h : s.head? ≠ some q) : Takes (inQuotes q) s none := .noFirst (.noChar h)

/-- The rule takes a text from one quote up to the next one of its kind that is not escaped. -/
theorem string_takes (hq : q = '"' ∨ q = '\'') (s : List Char) : Takes string (q :: s)
    ((Text.closeQuote? q s).map fun (raw, rest) => (q :: raw ++ [q], rest)) := by
  rcases hq with rfl | rfl
  · have h := inQuotes_takes (q := '"') (by decide) s
    cases hc : Text.closeQuote? '"' s with
    | none =>
      rw [hc] at h
      exact .right h (inQuotes_none (by simp))
    | some found =>
      rw [hc] at h
      exact .left h
  · exact .right (inQuotes_none (by simp)) (inQuotes_takes (by decide) s)

theorem string_none (h : ∀ q, q = '"' ∨ q = '\'' → s.head? ≠ some q) : Takes string s none :=
  .right (inQuotes_none (h _ (.inl rfl))) (inQuotes_none (h _ (.inr rfl)))

theorem takes_string_iff : Takes string s (some (taken, rest)) ↔ ∃ q raw body, (q = '"' ∨ q = '\'') ∧
    s = q :: body ∧ Text.closeQuote? q body = some (raw, rest) ∧ taken = q :: raw ++ [q] := by
  constructor
  · intro h
    by_cases hhead : ∃ q, (q = '"' ∨ q = '\'') ∧ s.head? = some q
    · obtain ⟨q, hq, hs⟩ := hhead
      obtain ⟨body, rfl⟩ := List.head?_eq_some_iff.1 hs
      obtain ⟨⟨raw, rest'⟩, hclose, ⟨⟩⟩ := Option.map_eq_some_iff.1 ((string_takes hq body).unique h)
      exact ⟨q, raw, body, hq, rfl, hclose, rfl⟩
    · cases (string_none fun q hq hs => hhead ⟨q, hq, hs⟩).unique h
  · rintro ⟨q, raw, body, hq, rfl, hclose, rfl⟩
    have h := string_takes hq body
    rw [hclose] at h
    exact h

/-- A text is the lexeme where the rule for texts fits; it is read from what the rule takes between the
quotes. -/
theorem lexeme?_text_iff {text : String} : Token.lexeme? s = some (.text text, rest) ↔
    ∃ q raw, Takes string s (some (q :: raw ++ [q], rest)) ∧ text = String.ofList (Text.unescape raw) := by
  have read {q : Char} {body : List Char} (hq : q = '"' ∨ q = '\'') : Token.lexeme? (q :: body) =
      (Text.closeQuote? q body).map fun (raw, r) => (.text (String.ofList (Text.unescape raw)), r) := by
    rcases hq with rfl | rfl <;> simp [Token.lexeme?, Token.isNameStart, Token.startsNumber]
  constructor
  · intro h
    unfold Token.lexeme? at h
    split at h
    · cases h
    next c body =>
      split at h
      · rw [Token.word] at h
        split at h <;> cases h
      · split at h
        · cases h
        · split at h
          next hq =>
            obtain ⟨⟨raw, rest⟩, hclose, ⟨⟩⟩ := Option.map_eq_some_iff.1 h
            exact ⟨c, raw, takes_string_iff.2 ⟨c, raw, body, hq, rfl, hclose, rfl⟩, rfl⟩
          next => exact absurd rfl ((Rules.symbol?_ne h).2.2 text)
  · rintro ⟨q, raw, h, rfl⟩
    obtain ⟨q', raw', body, hq, rfl, hclose, htaken⟩ := takes_string_iff.1 h
    obtain ⟨rfl, hraw⟩ := List.cons.inj htaken
    obtain rfl := List.append_cancel_right hraw
    rw [read hq, hclose]
    rfl

end Pattern

open Pattern (Takes)

variable (s : String) (r : List Char)

theorem quote_toList : (Text.quote s).toList = '"' :: s.toList.flatMap Text.escapeChar ++ ['"'] := by
  rw [Text.quote, String.toList_ofList, Text.quoteChars]

theorem between_quoted : Takes (.between '"') (s.toList.flatMap Text.escapeChar ++ '"' :: r)
    (some (s.toList.flatMap Text.escapeChar, '"' :: r)) :=
  (Pattern.between_takes (by decide) _).1 _ _ (Text.closeQuote?_escaped s.toList r)

theorem string_quoted :
    Takes .string ((Text.quote s).toList ++ r) (some ((Text.quote s).toList, r)) := by
  rw [quote_toList]
  exact Pattern.takes_string_iff.2 ⟨'"', _, _, .inl rfl, by simp, Text.closeQuote?_escaped s.toList r, rfl⟩

theorem lexeme?_quoted : Token.lexeme? ((Text.quote s).toList ++ r) = some (.text s, r) := by
  have htakes := string_quoted s r
  rw [quote_toList] at htakes ⊢
  refine Pattern.lexeme?_text_iff.2 ⟨'"', _, htakes, ?_⟩
  rw [Text.unescape_escaped, String.ofList_toList]

theorem scan?_quoted : Token.scan? ((Text.quote s).toList ++ r) =
    (Token.scan? r).map (⟨.text s, (Text.quote s).toList ++ r⟩ :: ·) := by
  obtain ⟨rest, hrest⟩ : ∃ rest, (Text.quote s).toList ++ r = '"' :: rest :=
    ⟨_, by rw [quote_toList]; rfl⟩
  have hlexeme := lexeme?_quoted s r
  rw [hrest] at hlexeme ⊢
  rw [Token.scan?_eq, Token.skipBlank_of_ne rfl (by decide)]
  simp only [hlexeme, Option.bind_some]

namespace Rules

theorem ofToken_quoted : Pair.ofToken .string ⟨.text s, (Text.quote s).toList ++ r⟩ =
    ⟨.string, (Text.quote s).toList ++ r, (Text.quote s).toList,
      [⟨.quoted true, s.toList.flatMap Text.escapeChar ++ '"' :: r, s.toList.flatMap Text.escapeChar, []⟩]⟩ := by
  have hchars := chars_of_append (lexeme?_quoted s r) rfl
  rw [Pair.ofToken, hchars]
  simp [quote_toList]

end Rules

/-- From a quotation with anything after it the rule for texts takes exactly the quotation, and in no other
way; between its quotes stands what is read back as the quoted text, and the tokens of what follows are
those that it has by itself. -/
theorem quoted_taken : ∃ raw : List Char,
    (Text.quote s).toList = '"' :: raw ++ ['"'] ∧ Text.unescape raw = s.toList ∧
    (∀ o, Takes .string ((Text.quote s).toList ++ r) o ↔ o = some ((Text.quote s).toList, r)) ∧
    (∀ o, Takes (.between '"') (raw ++ '"' :: r) o ↔ o = some (raw, '"' :: r)) ∧
    Token.scan? ((Text.quote s).toList ++ r) =
      (Token.scan? r).map (⟨.text s, (Text.quote s).toList ++ r⟩ :: ·) ∧
    ∀ ts source, ∃ p : Rules.Pair,
      Rules.Fits (.token .string) (⟨.text s, (Text.quote s).toList ++ r⟩ :: ts) (some ([p], ts)) ∧
      p.text = (Text.quote s).toList ∧ p.inner.map (·.text) = [raw] ∧
      (p.part source).expr = .ok (.literal (.string s)) := by
  refine ⟨s.toList.flatMap Text.escapeChar, quote_toList s, Text.unescape_escaped _,
    (string_quoted s r).iff, (between_quoted s r).iff, scan?_quoted s r, fun ts source => ?_⟩
  refine ⟨.ofToken .string ⟨.text s, (Text.quote s).toList ++ r⟩, .token rfl, ?_, ?_, ?_⟩
  · rw [Rules.ofToken_quoted]
  · rw [Rules.ofToken_quoted]
    rfl
  · rw [Rules.Pair.part_expr, Rules.ofToken_quoted]
    simp only [Rules.Pair.exprOf, Rules.partsOf_cons, List.head?_cons, Option.map_some, Option.getD_some,
      Rules.Pair.part_pair, Text.unescape_escaped, String.ofList_toList]

end ScopeBlocks.Script
