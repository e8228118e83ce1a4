import ScopeBlocks.Proofs.Script.Lexing
import ScopeBlocks.Script.Builder

/-! The text of tokens. A token stands in the text where its lexeme is the first one, so that its text is
what its lexeme is read from; what the builder reads in it is the lexeme again. -/
namespace ScopeBlocks

theorem Decimal.sign_cases (s : List Char) : ∃ signs, s = signs ++ (sign s).2 ∧
    ∀ ds : List Char, (∀ c ∈ ds.head?, c.isDigit = true) → sign (signs ++ ds) = ((sign s).1, ds) := by
  have unsigned (ds : List Char) (hds : ∀ c ∈ ds.head?, c.isDigit = true) : sign ds = (false, ds) := by
    unfold sign
    split
    next => exact absurd (hds '-' rfl) (by decide)
    next => exact absurd (hds '+' rfl) (by decide)
    next => rfl
  generalize hs : sign s = r
  unfold sign at hs
  split at hs
  next rest =>
    subst hs
    exact ⟨['-'], rfl, fun _ _ => rfl⟩
  next rest =>
    subst hs
    exact ⟨['+'], rfl, fun _ _ => rfl⟩
  next =>
    subst hs
    exact ⟨[], rfl, unsigned⟩

namespace Script

def Lexeme.mark? : Lexeme → Option String
  | .bang => some "!"
  | .operator op => some op.text
  | .assign op => some op.text
  | _ => none

namespace Token

variable {s r : List Char}

theorem isDigit_of_mem_takeWhile {c : Char} (h : c ∈ s.takeWhile Char.isDigit) : c.isDigit = true := by
  induction s with
  | nil => cases h
  | cons d s ih =>
    rw [List.takeWhile_cons] at h
    split at h
    next hd =>
      rcases List.mem_cons.1 h with rfl | h
      · exact hd
      · exact ih h
    next => cases h

theorem power_cases (s : List Char) : ∃ used, s = used ++ (power s).2 ∧
    Decimal.exponent? used = some (power s).1 ∧ ∀ c ∈ used.head?, c = 'e' ∨ c = 'E' := by
  have without : ∃ used, s = used ++ s ∧ Decimal.exponent? used = some 0 ∧
      ∀ c ∈ used.head?, c = 'e' ∨ c = 'E' := ⟨[], rfl, rfl, by simp⟩
  cases s with
  | nil => exact without
  | cons mark rest =>
    by_cases hmark : mark = 'e' ∨ mark = 'E'
    · obtain ⟨signs, hsigns, hsign⟩ := Decimal.sign_cases rest
      generalize hr : Decimal.sign rest = signed at hsigns hsign
      obtain ⟨negative, digits⟩ := signed
      cases hd : digits.takeWhile Char.isDigit with
      | nil =>
        simp only [power, hmark, if_true, hr, hd]
        exact without
      | cons d ds =>
        have hdigit : ∀ c ∈ d :: ds, c.isDigit = true := fun c hc =>
          isDigit_of_mem_takeWhile (hd ▸ hc)
        have hread := hsign (d :: ds) (by rintro c ⟨⟩; exact hdigit d List.mem_cons_self)
        simp only [power, hmark, if_true, hr, hd]
        refine ⟨mark :: (signs ++ d :: ds), ?_, ?_, by rintro c ⟨⟩; exact hmark⟩
        · rw [List.cons_append, List.append_assoc, ← hd, List.takeWhile_append_dropWhile, ← hsigns]
        · have hall : (d :: ds).all Char.isDigit = true := List.all_eq_true.2 hdigit
          simp only [Decimal.exponent?, hread, hmark, hall, ne_eq, reduceCtorEq,
            not_false_eq_true, and_self, if_true]
    · simp only [power, hmark, if_false]
      exact without

theorem fraction_cases (s : List Char) : ∃ used, s = used ++ (fraction s).2 ∧
    (∀ c ∈ (fraction s).1, c.isDigit = true) ∧
    ((fraction s).1 ≠ [] ∧ used = '.' :: (fraction s).1 ∨ (fraction s).1 = [] ∧ used = []) := by
  have without : ∃ used, s = used ++ s ∧ (∀ c ∈ ([] : List Char), c.isDigit = true) ∧
      (([] : List Char) ≠ [] ∧ used = '.' :: [] ∨ ([] : List Char) = [] ∧ used = []) :=
    ⟨[], rfl, by simp, .inr ⟨rfl, rfl⟩⟩
  unfold fraction
  split
  next rest =>
    split
    next => exact without
    next h =>
      refine ⟨'.' :: rest.takeWhile Char.isDigit, ?_, fun c => isDigit_of_mem_takeWhile, .inl ⟨h, rfl⟩⟩
      rw [List.cons_append, List.takeWhile_append_dropWhile]
  next => exact without

theorem startsNumber_digit {c : Char} (hc : c.isDigit = true) (s : List Char) :
    startsNumber (c :: s) = true := by
  unfold startsNumber
  split
  next heq =>
    cases heq
    cases hc
  next heq =>
    cases heq
    exact hc
  next heq => cases heq

theorem startsNumber_cases (h : startsNumber s = true) : ∃ c rest, c.isDigit = true ∧
    (s = c :: rest ∨ s = '.' :: c :: rest) := by
  unfold startsNumber at h
  split at h
  next c rest => exact ⟨c, rest, h, .inr rfl⟩
  next c rest _ => exact ⟨c, rest, h, .inl rfl⟩
  next => cases h

theorem readChars?_of_startsNumber (h : startsNumber s = true) :
    Number.readChars? s = (Decimal.read? s).map (Decimal.toNumber false) := by
  obtain ⟨c, rest, rfl, hc⟩ : ∃ c rest, s = c :: rest ∧ (c = '.' ∨ c.isDigit = true) := by
    obtain ⟨c, rest, hc, rfl | rfl⟩ := startsNumber_cases h
    · exact ⟨c, rest, rfl, .inr hc⟩
    · exact ⟨'.', c :: rest, rfl, .inl rfl⟩
  have hlower : c.toLower ≠ 'i' ∧ c.toLower ≠ 'n' := by
    rcases hc with rfl | hc
    · exact ⟨by decide, by decide⟩
    · have hdigit : c.toLower = c := by
        simp only [Char.isDigit, Bool.and_eq_true, decide_eq_true_eq] at hc
        exact dif_neg fun hup => absurd (UInt32.le_trans hup.1 hc.2) (by decide)
      rw [hdigit]
      constructor <;> rintro rfl <;> cases hc
  have hsign : c ≠ '-' ∧ c ≠ '+' := by
    rcases hc with rfl | hc
    · exact ⟨by decide, by decide⟩
    · constructor <;> rintro rfl <;> cases hc
  have hplain : Number.readChars? (c :: rest) = Number.readUnsigned? false (c :: rest) := by
    rw [Number.readChars?]
    · rintro _ ⟨⟩
      exact hsign.1 rfl
    · rintro _ ⟨⟩
      exact hsign.2 rfl
  rw [hplain, Number.readUnsigned?]
  split
  next heq => exact absurd (List.cons.inj heq).1 hlower.1
  next heq => exact absurd (List.cons.inj heq).1 hlower.1
  next heq => exact absurd (List.cons.inj heq).1 hlower.2
  next => rfl

theorem decimalRead?_parts {whole digits point mark : List Char} {e : Int}
    (hwhole : ∀ c ∈ whole, c.isDigit = true) (hdigits : ∀ c ∈ digits, c.isDigit = true)
    (hpoint : digits ≠ [] ∧ point = '.' :: digits ∨ digits = [] ∧ point = [])
    (hmark : ∀ c ∈ mark.head?, c = 'e' ∨ c = 'E') (hexponent : Decimal.exponent? mark = some e)
    (hsome : whole ≠ [] ∨ digits ≠ []) :
    Decimal.read? (whole ++ (point ++ mark)) =
      some ⟨Decimal.ofDigits (whole ++ digits), e - digits.length⟩ := by
  have hletter : ∀ c ∈ mark.head?, c.isDigit = false := by
    intro c hc
    rcases hmark c hc with rfl | rfl <;> decide
  have hends : ∀ c ∈ (point ++ mark).head?, c.isDigit = false := by
    rcases hpoint with ⟨-, rfl⟩ | ⟨-, rfl⟩
    · rintro c ⟨⟩
      decide
    · exact hletter
  have hnonempty : ¬(whole = [] ∧ digits = []) := by
    rcases hsome with h | h <;> simp [h]
  unfold Decimal.read?
  rw [takeWhile_ended hends hwhole, dropWhile_ended hends hwhole]
  rcases hpoint with ⟨-, rfl⟩ | ⟨rfl, rfl⟩
  · simp only [List.cons_append, takeWhile_ended hletter hdigits, dropWhile_ended hletter hdigits,
      hnonempty, if_false, hexponent, Option.map_some]
  · have plain {m : List Char} (hm : Decimal.exponent? m = some e) :
        (if whole = [] ∧ ([] : List Char) = [] then none
          else (Decimal.exponent? m).map fun e => (⟨Decimal.ofDigits (whole ++ []), e - 0⟩ : Decimal)) =
            some ⟨Decimal.ofDigits (whole ++ []), e - 0⟩ := by
      rw [if_neg hnonempty, hm]
      rfl
    cases mark with
    | nil => exact plain hexponent
    | cons c mark => rcases hmark c rfl with rfl | rfl <;> exact plain hexponent

/-- The text of a numeral is read as its number. -/
theorem numeral_text (h : startsNumber s = true) :
    ∃ used, s = used ++ (numeral s).2 ∧ Number.readChars? used = some (numeral s).1 := by
  obtain ⟨point, hpoint, hdigits, hfraction⟩ := fraction_cases (s.dropWhile Char.isDigit)
  obtain ⟨mark, hmark, hexponent, he⟩ := power_cases (fraction (s.dropWhile Char.isDigit)).2
  have hs : s = (s.takeWhile Char.isDigit ++ (point ++ mark)) ++ (numeral s).2 := by
    conv => lhs; rw [← List.takeWhile_append_dropWhile (p := Char.isDigit) (l := s), hpoint, hmark]
    simp only [List.append_assoc]
    rfl
  have hwhole : ∀ c ∈ s.takeWhile Char.isDigit, c.isDigit = true := fun c => isDigit_of_mem_takeWhile
  have hhead : (s.takeWhile Char.isDigit ≠ [] ∨ (fraction (s.dropWhile Char.isDigit)).1 ≠ []) ∧
      startsNumber (s.takeWhile Char.isDigit ++ (point ++ mark)) = true := by
    obtain ⟨c, rest, hc, rfl | rfl⟩ := startsNumber_cases h
    · rw [List.takeWhile_cons_of_pos hc]
      exact ⟨.inl (List.cons_ne_nil _ _), startsNumber_digit hc _⟩
    · have hfirst : (fraction (('.' :: c :: rest).dropWhile Char.isDigit)).1 =
          c :: rest.takeWhile Char.isDigit := by
        simp [fraction, hc]
      rw [hfirst] at hfraction ⊢
      rcases hfraction with ⟨-, rfl⟩ | ⟨habsurd, -⟩
      · exact ⟨.inr (List.cons_ne_nil _ _), hc⟩
      · cases habsurd
  refine ⟨_, hs, ?_⟩
  rw [readChars?_of_startsNumber hhead.2,
    decimalRead?_parts hwhole hdigits hfraction he hexponent hhead.1]
  rfl

theorem closeQuote?_append {q : Char} {raw : List Char} (h : Text.closeQuote? q s = some (raw, r)) :
    s = raw ++ q :: r := by
  fun_induction Text.closeQuote? q s generalizing raw r with
  | case1 => cases h
  | case2 => cases h
  | case3 c rest ih =>
    obtain ⟨⟨raw, r⟩, hrest, ⟨⟩⟩ := Option.map_eq_some_iff.1 h
    rw [ih hrest]
    rfl
  | case4 =>
    cases h
    rfl
  | case5 c rest _ _ _ ih =>
    obtain ⟨⟨raw, r⟩, hrest, ⟨⟩⟩ := Option.map_eq_some_iff.1 h
    rw [ih hrest]
    rfl

/-- The four kinds of lexemes with what they are read from. -/
theorem lexeme?_cases {l : Lexeme} (h : lexeme? s = some (l, r)) :
    l = word (s.takeWhile isNameChar) ∧ s = s.takeWhile isNameChar ++ r ∨
    (∃ used x, l = .number x ∧ s = used ++ r ∧ Number.readChars? used = some x) ∨
    (∃ q raw, l = .text (String.ofList (Text.unescape raw)) ∧ s = q :: raw ++ q :: r) ∨
    symbol? s = some (l, r) := by
  unfold lexeme? at h
  split at h
  · cases h
  next c rest =>
    split at h
    · cases h
      exact .inl ⟨rfl, List.takeWhile_append_dropWhile.symm⟩
    · split at h
      next hnumber =>
        cases h
        obtain ⟨used, hs, hread⟩ := numeral_text hnumber
        exact .inr (.inl ⟨used, _, rfl, hs, hread⟩)
      next =>
        split at h
        · obtain ⟨⟨raw, r⟩, hquote, ⟨⟩⟩ := Option.map_eq_some_iff.1 h
          exact .inr (.inr (.inl ⟨c, raw, rfl, by rw [closeQuote?_append hquote]; rfl⟩))
        · exact .inr (.inr (.inr h))

theorem symbol?_mark {l : Lexeme} {mark : String} (h : symbol? s = some (l, r))
    (hl : l.mark? = some mark) : s = mark.toList ++ r := by
  unfold symbol? at h
  split at h <;> cases h <;> cases hl <;> rfl

end Token

namespace Rules

/-- Tokens that stand in a text with their lexemes. -/
def Genuine (ts : List Token) : Prop := ∀ t ∈ ts, ∃ r, Token.lexeme? t.place = some (t.lexeme, r)

theorem Genuine.of_suffix {ts rest : List Token} (h : Genuine ts) (hrest : rest <:+ ts) :
    Genuine rest := fun t ht => h t (hrest.subset ht)

theorem genuine_of_scan {text : List Char} {tokens : List Token}
    (h : Token.scan? text = some tokens) : Genuine tokens := by
  induction tokens generalizing text with
  | nil => exact fun t ht => by cases ht
  | cons t tokens ih =>
    rw [Token.scan?_eq] at h
    split at h
    · cases h
    next c rest _ =>
      obtain ⟨⟨l, r⟩, hl, h⟩ := Option.bind_eq_some_iff.1 h
      obtain ⟨tokens', hscan, ⟨⟩⟩ := Option.map_eq_some_iff.1 h
      intro t ht
      rcases List.mem_cons.1 ht with rfl | ht
      · exact ⟨r, hl⟩
      · exact ih hscan t ht

section

variable {l : Lexeme} {place r : List Char}

theorem chars_of_append (h : Token.lexeme? place = some (l, r)) {used : List Char}
    (hplace : place = used ++ r) : (⟨l, place⟩ : Token).chars = used := by
  subst hplace
  rw [Token.chars, Token.rest]
  dsimp only
  rw [h]
  simp

theorem mark?_word (text : List Char) : (Token.word text).mark? = none := by
  unfold Token.word
  split <;> rfl

theorem chars_mark (h : Token.lexeme? place = some (l, r)) {mark : String} (hl : l.mark? = some mark) :
    String.ofList (⟨l, place⟩ : Token).chars = mark := by
  have hsymbol : Token.symbol? place = some (l, r) := by
    rcases Token.lexeme?_cases h with ⟨rfl, -⟩ | ⟨_, _, rfl, -⟩ | ⟨_, _, rfl, -⟩ | hsymbol
    · rw [mark?_word] at hl
      cases hl
    · cases hl
    · cases hl
    · exact hsymbol
  rw [chars_of_append h (Token.symbol?_mark hsymbol hl), String.ofList_toList]

theorem symbol?_ne {s : List Char} (h : Token.symbol? s = some (l, r)) :
    (∀ x, l ≠ .name x) ∧ (∀ x, l ≠ .number x) ∧ ∀ x, l ≠ .text x := by
  unfold Token.symbol? at h
  split at h <;> cases h <;> exact ⟨by rintro _ ⟨⟩, by rintro _ ⟨⟩, by rintro _ ⟨⟩⟩

theorem chars_name {x : String} (h : Token.lexeme? place = some (.name x, r)) :
    String.ofList (⟨.name x, place⟩ : Token).chars = x := by
  rcases Token.lexeme?_cases h with ⟨hx, hplace⟩ | ⟨_, _, hx, -⟩ | ⟨_, _, hx, -⟩ | hsymbol
  · rw [chars_of_append h hplace]
    unfold Token.word at hx
    split at hx <;> cases hx
    rfl
  · cases hx
  · cases hx
  · exact absurd rfl ((symbol?_ne hsymbol).1 x)

theorem chars_number {x : Number} (h : Token.lexeme? place = some (.number x, r)) :
    Number.readChars? (⟨.number x, place⟩ : Token).chars = some x := by
  rcases Token.lexeme?_cases h with ⟨hx, -⟩ | ⟨_, _, hx, hplace, hread⟩ | ⟨_, _, hx, -⟩ | hsymbol
  · unfold Token.word at hx
    split at hx <;> cases hx
  · cases hx
    rw [chars_of_append h hplace, hread]
  · cases hx
  · exact absurd rfl ((symbol?_ne hsymbol).2.1 x)

theorem chars_text {x : String} (h : Token.lexeme? place = some (.text x, r)) :
    String.ofList (Text.unescape (((⟨.text x, place⟩ : Token).chars.drop 1).dropLast)) = x := by
  rcases Token.lexeme?_cases h with ⟨hx, -⟩ | ⟨_, _, hx, -⟩ | ⟨q, raw, hx, hplace⟩ | hsymbol
  · unfold Token.word at hx
    split at hx <;> cases hx
  · cases hx
  · cases hx
    have hsplit : place = (q :: raw ++ [q]) ++ r := by rw [hplace]; simp
    rw [chars_of_append h hsplit]
    simp
  · exact absurd rfl ((symbol?_ne hsymbol).2.2 x)

end

end Rules

end Script

end ScopeBlocks
