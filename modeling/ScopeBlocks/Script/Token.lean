import ScopeBlocks.Number.Decimal
import ScopeBlocks.Script.Syntax
import ScopeBlocks.Text.Quoted
import ScopeBlocks.Text.Split

/-! Script text as tokens: words, numbers, texts between quotes and symbols, each the longest one that
fits, with white space and comments between them. A token keeps the text that it begins. -/
namespace ScopeBlocks.Script

inductive Lexeme where
  | keyword (word : Keyword)
  | name (text : String)
  | number (value : Number)
  | text (value : String)
  | openParen | closeParen | openBrace | closeBrace | semicolon | comma | dot | bang
  | assign (op : AssignOp)
  | operator (op : BinaryOp)
  deriving DecidableEq, Repr

structure Token where
  lexeme : Lexeme
  place : List Char
  deriving DecidableEq, Repr

namespace Token

open Text (length_dropWhile_le)

def isSpace (c : Char) : Bool := c == ' ' || c == '\t' || c == '\r' || c == '\n'

def isNameChar (c : Char) : Bool := c.isAlphanum || c == '_' || c == '$'

def isNameStart (c : Char) : Bool := c.isAlpha || c == '_' || c == '$'

/-- What follows the first comment end. -/
def closeComment? : List Char → Option (List Char)
  | [] => none
  | '*' :: '/' :: rest => some rest
  | _ :: rest => closeComment? rest

theorem closeComment?_length {s rest : List Char} (h : closeComment? s = some rest) :
    rest.length < s.length := by
  fun_induction closeComment? s with
  | case1 => simp at h
  | case2 r => simp only [Option.some.injEq] at h; subst h; simp only [List.length_cons]; omega
  | case3 c r _ ih => have := ih h; simp only [List.length_cons]; omega

/-- The text from the first character that is neither white space nor in a comment. A comment that
is never closed is none. -/
def skipBlank : List Char → List Char
  | [] => []
  | '/' :: '/' :: rest => skipBlank (rest.dropWhile (· != '\n'))
  | '/' :: '*' :: rest =>
    match h : closeComment? rest with
    | some r =>
      have := closeComment?_length h
      skipBlank r
    | none => '/' :: '*' :: rest
  | c :: rest => if isSpace c then skipBlank rest else c :: rest
termination_by s => s.length
decreasing_by
  · have := length_dropWhile_le (· != '\n') rest
    simp only [List.length_cons]; omega
  · simp only [List.length_cons]; omega
  · simp

/-- The digits after a point, where there are any. -/
def fraction : List Char → List Char × List Char
  | '.' :: rest =>
    match rest.takeWhile Char.isDigit with
    | [] => ([], '.' :: rest)
    | digits => (digits, rest.dropWhile Char.isDigit)
  | rest => ([], rest)

/-- The exponent after its mark, where there are digits for it. -/
def power : List Char → Int × List Char
  | mark :: rest =>
    if mark = 'e' ∨ mark = 'E' then
      let (negative, r) := Decimal.sign rest
      match r.takeWhile Char.isDigit with
      | [] => (0, mark :: rest)
      | digits =>
        let n : Int := Decimal.ofDigits digits
        (if negative then -n else n, r.dropWhile Char.isDigit)
    else (0, mark :: rest)
  | [] => (0, [])

/-- The number at the head of a text that begins with a digit, or with a point before one. -/
def numeral (s : List Char) : Number × List Char :=
  let whole := s.takeWhile Char.isDigit
  let (digits, r) := fraction (s.dropWhile Char.isDigit)
  let (e, r) := power r
  ((⟨Decimal.ofDigits (whole ++ digits), e - digits.length⟩ : Decimal).toNumber false, r)

def word (s : List Char) : Lexeme :=
  match Keyword.ofText? (String.ofList s) with
  | some k => .keyword k
  | none => .name (String.ofList s)

def symbol? : List Char → Option (Lexeme × List Char)
  | '|' :: '|' :: r => some (.operator .or, r)
  | '&' :: '&' :: r => some (.operator .and, r)
  | '=' :: '=' :: r => some (.operator .eq, r)
  | '!' :: '=' :: r => some (.operator .ne, r)
  | '<' :: '=' :: r => some (.operator .le, r)
  | '>' :: '=' :: r => some (.operator .ge, r)
  | '+' :: '=' :: r => some (.assign .add, r)
  | '-' :: '=' :: r => some (.assign .sub, r)
  | '=' :: r => some (.assign .set, r)
  | '!' :: r => some (.bang, r)
  | '<' :: r => some (.operator .lt, r)
  | '>' :: r => some (.operator .gt, r)
  | '+' :: r => some (.operator .add, r)
  | '-' :: r => some (.operator .sub, r)
  | '*' :: r => some (.operator .mul, r)
  | '/' :: r => some (.operator .div, r)
  | '%' :: r => some (.operator .rem, r)
  | '(' :: r => some (.openParen, r)
  | ')' :: r => some (.closeParen, r)
  | '{' :: r => some (.openBrace, r)
  | '}' :: r => some (.closeBrace, r)
  | ';' :: r => some (.semicolon, r)
  | ',' :: r => some (.comma, r)
  | '.' :: r => some (.dot, r)
  | _ => none

def startsNumber : List Char → Bool
  | '.' :: c :: _ => c.isDigit
  | c :: _ => c.isDigit
  | [] => false

def lexeme? (s : List Char) : Option (Lexeme × List Char) :=
  match s with
  | [] => none
  | c :: rest =>
    if isNameStart c then some (word (s.takeWhile isNameChar), s.dropWhile isNameChar)
    else if startsNumber s then
      let (x, r) := numeral s
      some (.number x, r)
    else if c = '"' ∨ c = '\'' then
      (Text.closeQuote? c rest).map fun (raw, r) => (.text (String.ofList (Text.unescape raw)), r)
    else symbol? s

theorem isNameChar_of_isNameStart {c : Char} (h : isNameStart c) : isNameChar c := by
  unfold isNameStart at h
  unfold isNameChar Char.isAlphanum
  simp only [Bool.or_eq_true] at h ⊢
  rcases h with (h | h) | h <;> simp [h]

theorem fraction_length (s : List Char) : (fraction s).2.length ≤ s.length := by
  unfold fraction
  split
  · rename_i rest
    split
    · exact Nat.le_refl _
    · have := length_dropWhile_le Char.isDigit rest
      simp only [List.length_cons]; omega
  · exact Nat.le_refl _

theorem power_length (s : List Char) : (power s).2.length ≤ s.length := by
  unfold power
  split
  · rename_i mark rest
    have h := Decimal.sign_length rest
    have := length_dropWhile_le Char.isDigit (Decimal.sign rest).2
    split
    · dsimp only
      split
      · exact Nat.le_refl _
      · simp only [List.length_cons]; omega
    · exact Nat.le_refl _
  · exact Nat.le_refl _

theorem numeral_length {s : List Char} (h : startsNumber s) : (numeral s).2.length < s.length := by
  have hf := fraction_length (s.dropWhile Char.isDigit)
  have hp := power_length (fraction (s.dropWhile Char.isDigit)).2
  show (power (fraction (s.dropWhile Char.isDigit)).2).2.length < s.length
  match s, h with
  | c :: rest, h =>
    by_cases hc : c.isDigit
    · have := length_dropWhile_le Char.isDigit rest
      simp only [List.dropWhile_cons, hc, ↓reduceIte] at hf hp ⊢
      simp only [List.length_cons]; omega
    · match c, rest, h, hc with
      | c, [], h, hc => exact absurd (by simpa only [startsNumber] using h) hc
      | c, d :: rest, h, hc =>
        have hdot : c = '.' := by
          simp only [startsNumber] at h
          split at h <;> simp_all
        subst hdot
        have hd : d.isDigit := by simpa [startsNumber] using h
        have hlt : (fraction ('.' :: d :: rest)).2.length < ('.' :: d :: rest).length := by
          have := length_dropWhile_le Char.isDigit rest
          simp only [fraction, List.takeWhile_cons, List.dropWhile_cons, hd, ↓reduceIte, List.length_cons]
          omega
        simp only [List.dropWhile_cons, hc] at hf hp ⊢
        exact Nat.lt_of_le_of_lt hp hlt

theorem symbol?_length {s : List Char} {l : Lexeme} {r : List Char} (h : symbol? s = some (l, r)) :
    r.length < s.length := by
  unfold symbol? at h
  split at h <;> grind

theorem lexeme?_length {s : List Char} {l : Lexeme} {r : List Char} (h : lexeme? s = some (l, r)) :
    r.length < s.length := by
  unfold lexeme? at h
  split at h
  · simp at h
  · rename_i c rest
    split at h
    · rename_i hc
      simp only [Option.some.injEq, Prod.mk.injEq] at h
      obtain ⟨_, rfl⟩ := h
      have := length_dropWhile_le isNameChar rest
      simp only [List.dropWhile_cons, isNameChar_of_isNameStart hc, ↓reduceIte, List.length_cons]
      omega
    · split at h
      · rename_i hn
        simp only [Option.some.injEq, Prod.mk.injEq] at h
        obtain ⟨_, rfl⟩ := h
        exact numeral_length hn
      · split at h
        · obtain ⟨⟨raw, r'⟩, hq, he⟩ := Option.map_eq_some_iff.1 h
          simp only [Prod.mk.injEq] at he
          obtain ⟨_, rfl⟩ := he
          have := Text.closeQuote?_length hq
          simp only [List.length_cons]; omega
        · exact symbol?_length h

theorem skipBlank_length (s : List Char) : (skipBlank s).length ≤ s.length := by
  fun_induction skipBlank s with
  | case1 => exact Nat.le_refl _
  | case2 rest ih =>
    have := length_dropWhile_le (· != '\n') rest
    simp only [List.length_cons]; omega
  | case3 rest r h this ih => simp only [List.length_cons]; omega
  | case4 => exact Nat.le_refl _
  | case5 c rest _ _ _ ih => simp only [List.length_cons]; omega
  | case6 => exact Nat.le_refl _

/-- The tokens of a text; none if somewhere no token begins. -/
def scan? (s : List Char) : Option (List Token) :=
  match hb : skipBlank s with
  | [] => some []
  | c :: rest =>
    match h : lexeme? (c :: rest) with
    | none => none
    | some (l, r) =>
      have : r.length < s.length := by
        have h1 := lexeme?_length h
        have h2 := skipBlank_length s
        rw [hb] at h2
        omega
      (scan? r).map fun tokens => ⟨l, c :: rest⟩ :: tokens
termination_by s.length

end Token

end ScopeBlocks.Script
