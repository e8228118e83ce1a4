import ScopeBlocks.Proofs.Number.Shortest
import ScopeBlocks.Proofs.Text.Quoted
import ScopeBlocks.Script.Token

/-! How written text falls into tokens. A piece of text scans to some lexemes if it does so before every
text that keeps it apart from what follows; pieces that do so can be put together. -/
namespace ScopeBlocks.Script.Token

def lexemes? (s : List Char) : Option (List Lexeme) := (scan? s).map (·.map Token.lexeme)

def prepend (ls : List Lexeme) (o : Option (List Lexeme)) : Option (List Lexeme) := o.map (ls ++ ·)

@[simp] theorem prepend_nil (o : Option (List Lexeme)) : prepend [] o = o := by
  cases o <;> rfl

@[simp] theorem prepend_prepend (ls ms : List Lexeme) (o : Option (List Lexeme)) :
    prepend ls (prepend ms o) = prepend (ls ++ ms) o := by
  cases o <;> simp [prepend]

theorem scan?_eq (s : List Char) : scan? s = match skipBlank s with
    | [] => some []
    | c :: rest => (lexeme? (c :: rest)).bind fun (l, r) =>
      (scan? r).map fun tokens => ⟨l, c :: rest⟩ :: tokens := by
  conv => lhs; unfold scan?
  split
  next hb => rw [hb]
  next c rest hb =>
    conv => rhs; rw [hb]
    dsimp only
    split
    next h => rw [h]; rfl
    next l r h => rw [h]; rfl

@[simp] theorem lexemes?_nil : lexemes? [] = some [] := by
  unfold lexemes?
  rw [scan?_eq]
  simp [skipBlank]

theorem skipBlank_of_ne {c : Char} {s : List Char} (hs : isSpace c = false) (hc : c ≠ '/') :
    skipBlank (c :: s) = c :: s := by
  conv => lhs; unfold skipBlank
  split <;> simp_all

theorem skipBlank_space {c : Char} (s : List Char) (h : isSpace c = true) :
    skipBlank (c :: s) = skipBlank s := by
  conv => lhs; unfold skipBlank
  split
  next he => cases he
  next he => cases he; cases h
  next he => cases he; cases h
  next he => cases he; rw [if_pos h]

@[simp] theorem lexemes?_space {c : Char} (s : List Char) (h : isSpace c = true) :
    lexemes? (c :: s) = lexemes? s := by
  unfold lexemes?
  rw [scan?_eq, scan?_eq s, skipBlank_space s h]

theorem lexemes?_of_lexeme? {s r : List Char} {l : Lexeme} (hs : s ≠ []) (hb : skipBlank s = s)
    (h : lexeme? s = some (l, r)) : lexemes? s = prepend [l] (lexemes? r) := by
  obtain ⟨c, rest, rfl⟩ := List.exists_cons_of_ne_nil hs
  unfold lexemes?
  rw [scan?_eq, hb]
  simp only [h, Option.bind_some]
  cases scan? r <;> rfl

/-! Tokens that end by themselves. -/

theorem lexemes?_symbol {c : Char} {s r : List Char} {l : Lexeme} (hs : isSpace c = false)
    (hc : c ≠ '/') (hn : isNameStart c = false) (hnum : startsNumber (c :: s) = false)
    (hq : ¬(c = '"' ∨ c = '\'')) (h : symbol? (c :: s) = some (l, r)) :
    lexemes? (c :: s) = prepend [l] (lexemes? r) := by
  refine lexemes?_of_lexeme? (by simp) (skipBlank_of_ne hs hc) ?_
  unfold lexeme?
  simp [hn, hnum, hq, h]

variable (s : List Char)

@[simp] theorem lexemes?_openParen : lexemes? ('(' :: s) = prepend [.openParen] (lexemes? s) :=
  lexemes?_symbol rfl (by decide) rfl rfl (by decide) rfl

@[simp] theorem lexemes?_closeParen : lexemes? (')' :: s) = prepend [.closeParen] (lexemes? s) :=
  lexemes?_symbol rfl (by decide) rfl rfl (by decide) rfl

@[simp] theorem lexemes?_openBrace : lexemes? ('\x7b' :: s) = prepend [.openBrace] (lexemes? s) :=
  lexemes?_symbol rfl (by decide) rfl rfl (by decide) rfl

@[simp] theorem lexemes?_closeBrace : lexemes? ('\x7d' :: s) = prepend [.closeBrace] (lexemes? s) :=
  lexemes?_symbol rfl (by decide) rfl rfl (by decide) rfl

@[simp] theorem lexemes?_semicolon : lexemes? (';' :: s) = prepend [.semicolon] (lexemes? s) :=
  lexemes?_symbol rfl (by decide) rfl rfl (by decide) rfl

@[simp] theorem lexemes?_comma : lexemes? (',' :: s) = prepend [.comma] (lexemes? s) :=
  lexemes?_symbol rfl (by decide) rfl rfl (by decide) rfl

def isPunctuation (c : Char) : Bool :=
  ['|', '&', '=', '!', '<', '>', '+', '-', '*', '%', '(', ')', '\x7b', '\x7d', ';', ','].contains c

/-- A symbol at the head of a text, one with two characters where there is one. -/
theorem lexemes?_punctuation {c : Char} (s : List Char) (h : isPunctuation c = true) :
    lexemes? (c :: s) = (symbol? (c :: s)).bind fun x => prepend [x.1] (lexemes? x.2) := by
  have hall : (['|', '&', '=', '!', '<', '>', '+', '-', '*', '%', '(', ')', '\x7b', '\x7d', ';',
      ','].all fun c => decide (isSpace c = false ∧ c ≠ '/' ∧ isNameStart c = false ∧ c ≠ '.' ∧
        c.isDigit = false ∧ ¬(c = '"' ∨ c = '\''))) = true := by decide
  obtain ⟨hs, hc, hn, hdot, hdigit, hq⟩ :=
    of_decide_eq_true (List.all_eq_true.1 hall c (List.contains_iff_mem.1 h))
  have hnum : startsNumber (c :: s) = false := by
    unfold startsNumber
    split
    next he => exact absurd (List.cons.inj he).1 hdot
    next he => rw [← (List.cons.inj he).1, hdigit]
    next he => cases he
  unfold lexemes?
  rw [scan?_eq, skipBlank_of_ne hs hc]
  have hl : lexeme? (c :: s) = symbol? (c :: s) := by
    unfold lexeme?
    simp [hn, hnum, hq]
  dsimp only
  rw [hl]
  rcases symbol? (c :: s) with _ | ⟨l, r⟩
  · rfl
  · cases h : scan? r <;> simp [prepend, h]

/-! Tokens that end where something else begins. -/

def isSeparator (c : Char) : Bool := isSpace c || c == '(' || c == ')' || c == ',' || c == ';'

/-- Whether a text ends every token that stands before it. -/
def Separated (s : List Char) : Prop := ∀ c ∈ s.head?, isSeparator c = true

@[simp] theorem separated_nil : Separated [] := by simp [Separated]

@[simp] theorem separated_cons {c : Char} {s : List Char} :
    Separated (c :: s) ↔ isSeparator c = true := by simp [Separated]

def Scans (s : List Char) (ls : List Lexeme) : Prop :=
  ∀ rest, Separated rest → lexemes? (s ++ rest) = prepend ls (lexemes? rest)

theorem isSeparator_cases {c : Char} (h : isSeparator c = true) :
    c = ' ' ∨ c = '\t' ∨ c = '\r' ∨ c = '\n' ∨ c = '(' ∨ c = ')' ∨ c = ',' ∨ c = ';' := by
  simpa only [isSeparator, isSpace, Bool.or_eq_true, beq_iff_eq, or_assoc] using h

theorem takeWhile_ended {p : Char → Bool} {word rest : List Char}
    (h : ∀ c ∈ rest.head?, p c = false) (hw : ∀ c ∈ word, p c = true) :
    (word ++ rest).takeWhile p = word := by
  rw [List.takeWhile_append_of_pos hw]
  cases rest with
  | nil => simp
  | cons c r => simp [h c rfl]

theorem dropWhile_ended {p : Char → Bool} {word rest : List Char}
    (h : ∀ c ∈ rest.head?, p c = false) (hw : ∀ c ∈ word, p c = true) :
    (word ++ rest).dropWhile p = rest := by
  rw [List.dropWhile_append_of_pos hw]
  cases rest with
  | nil => simp
  | cons c r => simp [h c rfl]

theorem isNameChar_of_isSeparator (c : Char) (h : isSeparator c = true) : isNameChar c = false := by
  rcases isSeparator_cases h with rfl | rfl | rfl | rfl | rfl | rfl | rfl | rfl <;> decide

theorem isDigit_of_isSeparator (c : Char) (h : isSeparator c = true) : c.isDigit = false := by
  rcases isSeparator_cases h with rfl | rfl | rfl | rfl | rfl | rfl | rfl | rfl <;> decide

theorem skipBlank_slash {s : List Char} (h : ∀ c ∈ s.head?, c ≠ '/' ∧ c ≠ '*') :
    skipBlank ('/' :: s) = '/' :: s := by
  cases s with
  | nil => simp [skipBlank, isSpace]
  | cons c r =>
    obtain ⟨h₁, h₂⟩ := h c rfl
    unfold skipBlank
    simp [h₁, h₂, isSpace]

theorem scans_binary (op : BinaryOp) : Scans op.text.toList [.operator op] := by
  intro rest hrest
  refine lexemes?_of_lexeme? (by cases op <;> simp [BinaryOp.text]) ?_ ?_
  · cases op with
    | div =>
      refine skipBlank_slash fun c hc => ?_
      have := hrest c hc
      constructor <;> rintro rfl <;> simp [isSeparator, isSpace] at this
    | _ => exact skipBlank_of_ne rfl (by decide)
  · cases rest with
    | nil => cases op <;> rfl
    | cons c r =>
      rcases isSeparator_cases (separated_cons.1 hrest) with
        rfl | rfl | rfl | rfl | rfl | rfl | rfl | rfl <;> cases op <;> rfl

theorem scans_assign (op : AssignOp) : Scans op.text.toList [.assign op] := by
  intro rest hrest
  refine lexemes?_of_lexeme? (by cases op <;> simp [AssignOp.text]) ?_ ?_
  · cases op <;> exact skipBlank_of_ne rfl (by decide)
  · cases rest with
    | nil => cases op <;> rfl
    | cons c r =>
      rcases isSeparator_cases (separated_cons.1 hrest) with
        rfl | rfl | rfl | rfl | rfl | rfl | rfl | rfl <;> cases op <;> rfl

def IsWord (s : List Char) : Prop :=
  (∃ c r, s = c :: r ∧ isNameStart c = true) ∧ ∀ c ∈ s, isNameChar c = true

theorem isNameStart_ne_space {c : Char} (h : isNameStart c = true) : isSpace c = false ∧ c ≠ '/' := by
  constructor
  · cases hs : isSpace c with
    | false => rfl
    | true =>
      simp only [isSpace, Bool.or_eq_true, beq_iff_eq] at hs
      rcases hs with ((rfl | rfl) | rfl) | rfl <;> simp [isNameStart] at h
  · rintro rfl
    simp [isNameStart] at h

/-- Whether a text ends every word and number that stands before it. -/
def EndsWord (s : List Char) : Prop := ∀ c ∈ s.head?, isNameChar c = false

theorem Separated.endsWord {s : List Char} (h : Separated s) : EndsWord s :=
  fun c hc => isNameChar_of_isSeparator c (h c hc)

theorem lexemes?_isWord {s rest : List Char} (h : IsWord s) (hrest : EndsWord rest) :
    lexemes? (s ++ rest) = prepend [word s] (lexemes? rest) := by
  obtain ⟨⟨c, r, rfl, hc⟩, hall⟩ := h
  have htake := takeWhile_ended hrest hall
  have hdrop := dropWhile_ended hrest hall
  obtain ⟨hspace, hslash⟩ := isNameStart_ne_space hc
  refine lexemes?_of_lexeme? (by simp) (skipBlank_of_ne hspace hslash) ?_
  show lexeme? (c :: (r ++ rest)) = _
  unfold lexeme?
  dsimp only
  rw [if_pos hc]
  exact congrArg some (Prod.ext (congrArg word htake) hdrop)

theorem scans_word {s : List Char} (h : IsWord s) : Scans s [word s] :=
  fun _ hrest => lexemes?_isWord h hrest.endsWord

theorem scans_quote (text : String) : ∀ rest,
    lexemes? ((Text.quote text).toList ++ rest) = prepend [.text text] (lexemes? rest) := by
  intro rest
  have hq : (Text.quote text).toList ++ rest =
      '"' :: (text.toList.flatMap Text.escapeChar ++ '"' :: rest) := by
    simp [Text.quote, Text.quoteChars]
  rw [hq]
  refine lexemes?_of_lexeme? (by simp) (skipBlank_of_ne rfl (by decide)) ?_
  unfold lexeme?
  simp [isNameStart, startsNumber, Text.closeQuote?_escaped, Text.unescape_escaped]

@[simp] theorem isSpace_literal : isSpace ' ' = true ∧ isSpace '\n' = true := by decide

@[simp] theorem isSeparator_literal : isSeparator ' ' = true ∧ isSeparator '\n' = true ∧
    isSeparator '(' = true ∧ isSeparator ')' = true ∧ isSeparator ',' = true ∧
      isSeparator ';' = true := by decide

theorem lexemes?_word {c : Char} {s : List Char} (h : isNameStart c = true)
    (hs : Separated ((c :: s).dropWhile isNameChar)) :
    lexemes? (c :: s) = prepend [word ((c :: s).takeWhile isNameChar)]
      (lexemes? ((c :: s).dropWhile isNameChar)) := by
  have hw : IsWord ((c :: s).takeWhile isNameChar) := by
    refine ⟨⟨c, s.takeWhile isNameChar, ?_, h⟩, fun d hd => List.all_eq_true.1 List.all_takeWhile d hd⟩
    rw [List.takeWhile_cons_of_pos (isNameChar_of_isNameStart h)]
  have hscan := scans_word hw _ hs
  rwa [List.takeWhile_append_dropWhile] at hscan

/-! Numbers as they are printed. -/

theorem isNameChar_of_isDigit {c : Char} (h : c.isDigit = true) : isNameChar c = true := by
  simp [isNameChar, Char.isAlphanum, h]

/-- Whether a text ends every number that stands before it: a point begins no fraction there. -/
def EndsNumber (s : List Char) : Prop := EndsWord s ∧ startsNumber s = false

theorem EndsNumber.not_isDigit {s : List Char} (h : EndsNumber s) (c : Char) (hc : c ∈ s.head?) :
    c.isDigit = false :=
  Bool.eq_false_iff.2 fun hd => Bool.eq_false_iff.1 (h.1 c hc) (isNameChar_of_isDigit hd)

theorem Separated.endsNumber {s : List Char} (h : Separated s) : EndsNumber s := by
  refine ⟨h.endsWord, ?_⟩
  cases s with
  | nil => rfl
  | cons c s =>
    have hc := separated_cons.1 h
    unfold startsNumber
    split
    next he => rw [(List.cons.inj he).1] at hc; cases hc
    next he => rw [← (List.cons.inj he).1]; exact isDigit_of_isSeparator c hc
    next he => cases he

theorem fraction_ended {rest : List Char} (h : EndsNumber rest) : fraction rest = ([], rest) := by
  unfold fraction
  split
  next r =>
    cases r with
    | nil => rfl
    | cons c r =>
      have hc : c.isDigit = false := h.2
      simp [hc]
  next => rfl

theorem power_ended {rest : List Char} (h : EndsNumber rest) : power rest = (0, rest) := by
  unfold power
  split
  next c r =>
    rw [if_neg]
    rintro (rfl | rfl) <;> exact absurd (h.1 _ rfl) (by decide)
  next => rfl

theorem numeral_whole {ds rest : List Char} (h : EndsNumber rest) (hd : ∀ c ∈ ds, c.isDigit = true) :
    numeral (ds ++ rest) = ((⟨Decimal.ofDigits ds, 0⟩ : Decimal).toNumber false, rest) := by
  unfold numeral
  simp only [takeWhile_ended h.not_isDigit hd, dropWhile_ended h.not_isDigit hd,
    fraction_ended h, power_ended h, List.append_nil]
  rfl

theorem numeral_point {ds fs rest : List Char} (h : EndsNumber rest)
    (hd : ∀ c ∈ ds, c.isDigit = true) (hf : ∀ c ∈ fs, c.isDigit = true) (hne : fs ≠ []) :
    numeral (ds ++ '.' :: (fs ++ rest)) =
      ((⟨Decimal.ofDigits (ds ++ fs), -fs.length⟩ : Decimal).toNumber false, rest) := by
  have htake : (ds ++ '.' :: (fs ++ rest)).takeWhile Char.isDigit = ds := by
    rw [List.takeWhile_append_of_pos hd]
    simp [show Char.isDigit '.' = false by decide]
  have hdrop : (ds ++ '.' :: (fs ++ rest)).dropWhile Char.isDigit = '.' :: (fs ++ rest) := by
    rw [List.dropWhile_append_of_pos hd]
    simp [show Char.isDigit '.' = false by decide]
  have hfrac : fraction ('.' :: (fs ++ rest)) = (fs, rest) := by
    unfold fraction
    simp only [takeWhile_ended h.not_isDigit hf, dropWhile_ended h.not_isDigit hf]
  unfold numeral
  simp only [htake, hdrop, hfrac, power_ended h, Int.zero_sub]

theorem ofDigits_eq (ds : List Char) : Decimal.ofDigits ds = Nat.ofDigitChars 10 ds 0 :=
  Nat.ofDigitChars_eq_foldl.symm

theorem ofDigits_digits (d : Decimal) : Decimal.ofDigits d.digits = d.coefficient := by
  rw [ofDigits_eq]
  exact Nat.ofDigitChars_ten_toDigits

theorem isDigit_of_mem_digits {d : Decimal} {c : Char} (h : c ∈ d.digits) : c.isDigit = true :=
  Nat.isDigit_of_mem_toDigits (by decide) (by decide) h

theorem isDigit_of_mem_zeros {n : Nat} {c : Char} (h : c ∈ List.replicate n '0') :
    c.isDigit = true := by
  rw [List.eq_of_mem_replicate h]
  decide

theorem ofDigits_zerosAfter (d : Decimal) (n : Nat) :
    Decimal.ofDigits (d.digits ++ List.replicate n '0') = 10 ^ n * d.coefficient := by
  rw [ofDigits_eq, Nat.ofDigitChars_append, ← ofDigits_eq, ofDigits_digits,
    Nat.ofDigitChars_replicate_zero]

theorem ofDigits_zerosBefore (d : Decimal) (n : Nat) :
    Decimal.ofDigits (['0'] ++ (List.replicate n '0' ++ d.digits)) = d.coefficient := by
  rw [← List.append_assoc, ofDigits_eq, Nat.ofDigitChars_append, Nat.ofDigitChars_append,
    Nat.ofDigitChars_replicate_zero]
  show Nat.ofDigitChars 10 d.digits (10 ^ _ * 0) = _
  rw [Nat.mul_zero, ← ofDigits_eq, ofDigits_digits]

theorem toNumber_zerosAfter {d : Decimal} (he : 0 ≤ d.exponent) :
    (⟨10 ^ d.exponent.toNat * d.coefficient, 0⟩ : Decimal).toNumber false = d.toNumber false := by
  rcases Nat.eq_zero_or_pos d.coefficient with hc | hc
  · obtain ⟨c, e⟩ := d
    dsimp only at hc
    subst hc
    rw [Nat.mul_zero, Decimal.toNumber_zero, Decimal.toNumber_zero]
  · have hpos := Nat.mul_pos (Decimal.pow_ten_pos d.exponent.toNat) hc
    rw [Decimal.toNumber_eq_of_scaled false (m := 1) (d := d)
      (e := ⟨10 ^ d.exponent.toNat * d.coefficient, 0⟩) (Nat.pos_iff_ne_zero.1 hc)
      (Nat.pos_iff_ne_zero.1 hpos) (by decide)]
    · show Nat.pow 10 d.exponent.toNat * d.coefficient * 1 =
        d.coefficient * Nat.pow 10 d.exponent.toNat * 1
      rw [Nat.mul_comm d.coefficient]
    · show 1 = Nat.pow 10 (-d.exponent).toNat * 1
      rw [show (-d.exponent).toNat = 0 by omega]

/-- A decimal that is written in full is read as the same number. -/
theorem numeral_positional (d : Decimal) {rest : List Char} (h : EndsNumber rest) :
    numeral (Number.positional d ++ rest) = (d.toNumber false, rest) := by
  unfold Number.positional
  dsimp only
  split
  next he =>
    have hdigits : ∀ c ∈ d.digits ++ List.replicate d.exponent.toNat '0', c.isDigit = true := fun c hc =>
      (List.mem_append.1 hc).elim isDigit_of_mem_digits isDigit_of_mem_zeros
    rw [numeral_whole h hdigits, ofDigits_zerosAfter, toNumber_zerosAfter he]
  next he =>
    -- so many digits stand after the point
    have hplaces : -((-d.exponent).toNat : Int) = d.exponent := by omega
    split
    next hlt =>
      have hlen : (d.digits.drop (d.digits.length - (-d.exponent).toNat)).length =
          (-d.exponent).toNat := by
        rw [List.length_drop]
        omega
      rw [List.append_assoc, List.cons_append, numeral_point h
        (fun c hc => isDigit_of_mem_digits (List.mem_of_mem_take hc))
        (fun c hc => isDigit_of_mem_digits (List.mem_of_mem_drop hc))
        (List.ne_nil_of_length_pos (by rw [hlen]; omega)),
        List.take_append_drop, ofDigits_digits, hlen, hplaces]
    next hge =>
      have hlen : (List.replicate ((-d.exponent).toNat - d.digits.length) '0' ++ d.digits).length =
          (-d.exponent).toNat := by
        rw [List.length_append, List.length_replicate]
        omega
      have hdigits : ∀ c ∈ List.replicate ((-d.exponent).toNat - d.digits.length) '0' ++ d.digits,
          c.isDigit = true := fun c hc =>
        (List.mem_append.1 hc).elim isDigit_of_mem_zeros isDigit_of_mem_digits
      show numeral (['0'] ++ '.' :: ((List.replicate _ '0' ++ d.digits) ++ rest)) = _
      rw [numeral_point h (by simp) hdigits (List.ne_nil_of_length_pos (by rw [hlen]; omega)),
        ofDigits_zerosBefore, hlen, hplaces]

theorem digit_cases {c : Char} (h : c.isDigit = true) : ∃ n < 10, c = Nat.digitChar n := by
  have hn : c.toNat - 48 < 10 ∧ 48 + (c.toNat - 48) = c.toNat := by
    have := Char.isDigit_iff_toNat.1 h
    simp only [show '0'.toNat = 48 from rfl, show '9'.toNat = 57 from rfl] at this
    omega
  refine ⟨c.toNat - 48, hn.1, ?_⟩
  have hc : c = Char.ofNat (48 + (c.toNat - 48)) := by rw [hn.2, Char.ofNat_toNat]
  generalize c.toNat - 48 = n at hc hn
  rw [hc]
  have hlt := hn.1
  clear hc hn h
  revert n
  decide

/-- The magnitude of a number reads back as it. -/
theorem lexemes?_number {k : Nat} (hk : Number.Representable k) {rest : List Char}
    (hrest : EndsNumber rest) : lexemes? ((Number.finite false k hk).text.toList ++ rest) =
      prepend [.number (.finite false k hk)] (lexemes? rest) := by
  obtain ⟨d, htext, hvalue⟩ := Number.textChars_finite hk
  obtain ⟨c, r, hd, hc⟩ := Number.positional_head d
  have hnum := numeral_positional d hrest
  rw [hvalue, hd] at hnum
  unfold Number.text
  rw [String.toList_ofList, htext, hd]
  obtain ⟨n, hn, rfl⟩ := digit_cases hc
  have hshape : ∀ n < 10, isSpace (Nat.digitChar n) = false ∧ Nat.digitChar n ≠ '/' ∧
      isNameStart (Nat.digitChar n) = false ∧ Nat.digitChar n ≠ '.' := by decide
  obtain ⟨hspace, hslash, hname, hdot⟩ := hshape n hn
  refine lexemes?_of_lexeme? (by simp) (skipBlank_of_ne hspace hslash) ?_
  have hstart : startsNumber (Nat.digitChar n :: (r ++ rest)) = true := by
    unfold startsNumber
    split
    next he => exact absurd (List.cons.inj he).1 hdot
    next he => rw [← (List.cons.inj he).1]; exact hc
    next he => cases he
  rw [List.cons_append] at hnum ⊢
  unfold lexeme?
  dsimp only
  rw [if_neg (by simp [hname]), if_pos hstart, hnum]

theorem scans_number {k : Nat} (hk : Number.Representable k) :
    Scans (Number.finite false k hk).text.toList [.number (.finite false k hk)] :=
  fun _ hrest => lexemes?_number hk hrest.endsNumber

/-! Putting pieces together. -/

theorem lexemes?_minus {c : Char} {s : List Char} (h : c ≠ '=') :
    lexemes? ('-' :: c :: s) = prepend [.operator .sub] (lexemes? (c :: s)) :=
  lexemes?_symbol rfl (by decide) rfl rfl (by decide) (by simp [symbol?, h])

theorem lexemes?_bang {c : Char} {s : List Char} (h : c ≠ '=') :
    lexemes? ('!' :: c :: s) = prepend [.bang] (lexemes? (c :: s)) :=
  lexemes?_symbol rfl (by decide) rfl rfl (by decide) (by simp [symbol?, h])

end ScopeBlocks.Script.Token
