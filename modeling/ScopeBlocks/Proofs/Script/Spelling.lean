import ScopeBlocks.Proofs.Script.Lexing
import Mathlib.Data.List.Chain

/-! How a text is laid out from lexemes: each one spelled, with blank text behind it. Blank text is
white space and comments. Only two words have to be kept apart, and those lexemes that the grammar puts
beside each other nowhere; a layout scans to its lexemes. -/
namespace ScopeBlocks.Script

open Token

structure IsName (x : String) : Prop where
  word : IsWord x.toList
  free : Keyword.ofText? x = none

def Lexeme.spelling : Lexeme → List Char
  | .keyword w => w.text.toList
  | .name x => x.toList
  | .number x => x.text.toList
  | .text s => Text.quoteChars s.toList
  | .openParen => ['(']
  | .closeParen => [')']
  | .openBrace => ['\x7b']
  | .closeBrace => ['\x7d']
  | .semicolon => [';']
  | .comma => [',']
  | .dot => ['.']
  | .bang => ['!']
  | .assign op => op.text.toList
  | .operator op => op.text.toList

namespace Lexeme

/-- Whether a lexeme has a spelling: its name is one, or its number neither negative nor infinite. -/
def Spelled : Lexeme → Prop
  | .name x => IsName x
  | .number x => ∃ k hk, x = .finite false k hk
  | _ => True

def isWord : Lexeme → Bool
  | .keyword _ | .name _ => true
  | _ => false

def isNumber : Lexeme → Bool
  | .number _ => true
  | _ => false

def startsEquals : Lexeme → Bool
  | .assign .set | .operator .eq => true
  | _ => false

/-- Whether one lexeme directly before another is still read as itself. -/
def apart : Lexeme → Lexeme → Bool
  | .keyword _, m | .name _, m | .number _, m => !m.isWord && !m.isNumber
  | .dot, m => !m.isNumber
  | .bang, m | .assign .set, m | .operator .lt, m | .operator .gt, m | .operator .add, m
  | .operator .sub, m => !m.startsEquals
  | .operator .div, m => !(m = .operator .div || m = .operator .mul)
  | _, _ => true

/-- Whether the spelling of a lexeme ends where a text begins. -/
def EndsAt (s : List Char) : Lexeme → Prop
  | .keyword _ | .name _ => EndsWord s
  | .number _ => EndsNumber s
  | .dot => ∀ c ∈ s.head?, c.isDigit = false
  | .bang | .assign .set | .operator .lt | .operator .gt | .operator .add | .operator .sub =>
    ∀ c ∈ s.head?, c ≠ '='
  | .operator .div => ∀ c ∈ s.head?, c ≠ '/' ∧ c ≠ '*'
  | _ => True

variable {l m : Lexeme} {s : List Char}

theorem endsAt_nil (l : Lexeme) : l.EndsAt [] := by
  cases l with
  | assign op => cases op <;> simp [EndsAt]
  | operator op => cases op <;> simp [EndsAt]
  | number => exact ⟨by simp [EndsWord], rfl⟩
  | _ => simp [EndsAt, EndsWord]

theorem isSpace_cases {c : Char} (h : isSpace c = true) :
    c = ' ' ∨ c = '\t' ∨ c = '\r' ∨ c = '\n' := by
  simpa only [isSpace, Bool.or_eq_true, beq_iff_eq, or_assoc] using h

theorem endsAt_space {c : Char} (h : isSpace c = true) (l : Lexeme) : l.EndsAt (c :: s) := by
  have hsep : Separated (c :: s) := by simp [isSeparator, h]
  have hword := hsep.endsWord
  have hnumber := hsep.endsNumber
  rcases isSpace_cases h with rfl | rfl | rfl | rfl <;>
  · cases l with
    | assign op => cases op <;> simp [EndsAt]
    | operator op => cases op <;> simp [EndsAt]
    | _ => first | exact hword | exact hnumber | simp [EndsAt]

theorem keyword_isWord (w : Keyword) : IsWord w.text.toList := by
  constructor
  · cases w <;> exact ⟨_, _, rfl, rfl⟩
  · cases w <;> exact List.all_eq_true.1 rfl

theorem isNameStart_ne {c : Char} (h : isNameStart c = true) :
    c ≠ '=' ∧ c ≠ '/' ∧ c ≠ '*' ∧ c ≠ '.' ∧ c.isDigit = false := by
  refine ⟨?_, ?_, ?_, ?_, ?_⟩
  · rintro rfl; cases h
  · rintro rfl; cases h
  · rintro rfl; cases h
  · rintro rfl; cases h
  · refine Bool.eq_false_iff.2 fun hd => ?_
    obtain ⟨n, hn, rfl⟩ := digit_cases hd
    have hall : ∀ n < 10, isNameStart (Nat.digitChar n) = false := by decide
    rw [hall n hn] at h
    cases h

theorem isDigit_ne {c : Char} (h : c.isDigit = true) : c ≠ '=' ∧ c ≠ '/' ∧ c ≠ '*' := by
  refine ⟨?_, ?_, ?_⟩ <;> rintro rfl <;> cases h

theorem spelling_head (hm : m.Spelled) : ∃ c r, m.spelling = c :: r ∧
    (m.isWord = true → isNameStart c = true) ∧ (m.isNumber = true → c.isDigit = true) ∧
    (m.isWord = false → m.isNumber = false → isNameChar c = false ∧
      (c = '=' → m.startsEquals = true) ∧ (c = '/' → m = .operator .div) ∧
      (c = '*' → m = .operator .mul) ∧ (c = '.' → m = .dot)) := by
  cases m with
  | keyword w =>
    obtain ⟨⟨c, r, hc, hstart⟩, -⟩ := keyword_isWord w
    exact ⟨c, r, hc, fun _ => hstart, by rintro ⟨⟩, by rintro ⟨⟩⟩
  | name x =>
    obtain ⟨⟨c, r, hc, hstart⟩, -⟩ := hm.word
    exact ⟨c, r, hc, fun _ => hstart, by rintro ⟨⟩, by rintro ⟨⟩⟩
  | number x =>
    obtain ⟨k, hk, rfl⟩ := hm
    obtain ⟨d, htext, -⟩ := Number.textChars_finite hk
    obtain ⟨c, r, hd, hc⟩ := Number.positional_head d
    exact ⟨c, r, by simp [spelling, Number.text, htext, hd], by rintro ⟨⟩, fun _ => hc, by rintro - ⟨⟩⟩
  | text t =>
    have hquote : '"' ≠ '=' ∧ '"' ≠ '/' ∧ '"' ≠ '*' ∧ '"' ≠ '.' := by decide
    obtain ⟨hequals, hslash, hstar, hdot⟩ := hquote
    exact ⟨'"', _, rfl, by rintro ⟨⟩, by rintro ⟨⟩, fun _ _ => ⟨rfl, fun h => absurd h hequals,
      fun h => absurd h hslash, fun h => absurd h hstar, fun h => absurd h hdot⟩⟩
  | assign op =>
    cases op <;> exact ⟨_, _, rfl, by decide, by decide, by decide⟩
  | operator op =>
    cases op <;> exact ⟨_, _, rfl, by decide, by decide, by decide⟩
  | _ => exact ⟨_, _, rfl, by decide, by decide, by decide⟩

/-- Which lexemes begin with a character that can belong to the one before them. -/
theorem head_ne (hm : m.Spelled) {c : Char} {r : List Char} (hc : m.spelling = c :: r) :
    (m.startsEquals = false → c ≠ '=') ∧
      (m ≠ .operator .div → m ≠ .operator .mul → c ≠ '/' ∧ c ≠ '*') := by
  obtain ⟨d, t, hd, hword, hnumber, hsymbol⟩ := spelling_head hm
  obtain ⟨rfl, -⟩ := List.cons.inj (hc.symm.trans hd)
  cases hw : m.isWord with
  | true =>
    obtain ⟨he, hs, ha, -⟩ := isNameStart_ne (hword hw)
    exact ⟨fun _ => he, fun _ _ => ⟨hs, ha⟩⟩
  | false =>
    cases hn : m.isNumber with
    | true =>
      obtain ⟨he, hs, ha⟩ := isDigit_ne (hnumber hn)
      exact ⟨fun _ => he, fun _ _ => ⟨hs, ha⟩⟩
    | false =>
      obtain ⟨-, he, hs, ha, -⟩ := hsymbol hw hn
      refine ⟨fun hm hc => ?_, fun hdiv hmul => ⟨fun hc => hdiv (hs hc), fun hc => hmul (ha hc)⟩⟩
      rw [he hc] at hm
      cases hm

/-- A lexeme that may stand directly before another one ends there. -/
theorem endsAt_spelling (hm : m.Spelled) (hs : m.EndsAt s) (h : l.apart m = true) :
    l.EndsAt (m.spelling ++ s) := by
  obtain ⟨c, r, hc, hword, -, hsymbol⟩ := spelling_head hm
  obtain ⟨hequals, hslash⟩ := head_ne hm hc
  rw [hc, List.cons_append]
  have hends : m.isWord = false → m.isNumber = false → EndsWord (c :: (r ++ s)) := by
    rintro hw hn _ ⟨⟩
    exact (hsymbol hw hn).1
  have hdigit : m.isNumber = false → c.isDigit = false := fun hn => by
    cases hw : m.isWord with
    | true => exact (isNameStart_ne (hword hw)).2.2.2.2
    | false =>
      exact Bool.eq_false_iff.2 fun hd =>
        Bool.eq_false_iff.1 (hsymbol hw hn).1 (isNameChar_of_isDigit hd)
  cases l with
  | keyword | name =>
    simp only [apart, Bool.and_eq_true, Bool.not_eq_true'] at h
    exact hends h.1 h.2
  | number =>
    simp only [apart, Bool.and_eq_true, Bool.not_eq_true'] at h
    refine ⟨hends h.1 h.2, ?_⟩
    by_cases hdot : c = '.'
    · -- a point after a number begins no fraction, as the point ends where it does
      obtain rfl := (hsymbol h.1 h.2).2.2.2.2 hdot
      obtain ⟨rfl, rfl⟩ := List.cons.inj hc
      cases s with
      | nil => rfl
      | cons d s => exact hs d rfl
    · unfold startsNumber
      split
      next he => exact absurd (List.cons.inj he).1 hdot
      next he => rw [← (List.cons.inj he).1]; exact hdigit h.2
      next he => cases he
  | dot =>
    rintro _ ⟨⟩
    exact hdigit (by simpa [apart] using h)
  | bang =>
    rintro _ ⟨⟩
    exact hequals (by simpa [apart] using h)
  | assign op =>
    cases op with
    | set =>
      rintro _ ⟨⟩
      exact hequals (by simpa [apart] using h)
    | _ => trivial
  | operator op =>
    cases op with
    | lt | gt | add | sub =>
      rintro _ ⟨⟩
      exact hequals (by simpa [apart] using h)
    | div =>
      rintro _ ⟨⟩
      simp only [apart, Bool.not_eq_true', Bool.or_eq_false_iff, decide_eq_false_iff_not] at h
      exact hslash h.1 h.2
    | _ => trivial
  | _ => trivial

theorem symbol?_assign {op : AssignOp} (h : EndsAt s (.assign op)) :
    symbol? (op.text.toList ++ s) = some (.assign op, s) := by
  cases s with
  | nil => cases op <;> rfl
  | cons c s =>
    cases op with
    | set =>
      have hc : c ≠ '=' := h c rfl
      simp [AssignOp.text, symbol?, hc]
    | _ => rfl

theorem symbol?_operator {op : BinaryOp} (h : EndsAt s (.operator op)) :
    symbol? (op.text.toList ++ s) = some (.operator op, s) := by
  cases s with
  | nil => cases op <;> rfl
  | cons c s =>
    cases op with
    | lt | gt | add | sub =>
      have hc : c ≠ '=' := h c rfl
      simp [BinaryOp.text, symbol?, hc]
    | _ => rfl

theorem lexemes?_spelling (hl : l.Spelled) (hs : l.EndsAt s) :
    lexemes? (l.spelling ++ s) = prepend [l] (lexemes? s) := by
  cases l with
  | keyword w =>
    have hw : word w.text.toList = .keyword w := by cases w <;> rfl
    exact (lexemes?_isWord (keyword_isWord w) hs).trans (by rw [hw])
  | name x =>
    have hw : word x.toList = .name x := by
      unfold word
      rw [String.ofList_toList, hl.free]
    exact (lexemes?_isWord hl.word hs).trans (by rw [hw])
  | number x =>
    obtain ⟨k, hk, rfl⟩ := hl
    exact lexemes?_number hk hs
  | text t =>
    have hq := scans_quote t s
    rwa [Text.quote, String.toList_ofList] at hq
  | dot =>
    refine lexemes?_symbol rfl (by decide) rfl ?_ (by decide) rfl
    cases s with
    | nil => rfl
    | cons c s => exact hs c rfl
  | openParen | closeParen | openBrace | closeBrace | semicolon | comma =>
    exact lexemes?_symbol rfl (by decide) rfl rfl (by decide) rfl
  | bang =>
    refine lexemes?_symbol rfl (by decide) rfl rfl (by decide) ?_
    cases s with
    | nil => rfl
    | cons c s => simp [symbol?, hs c rfl]
  | assign op =>
    have hsymbol := symbol?_assign hs
    cases op <;> exact lexemes?_symbol rfl (by decide) rfl rfl (by decide) hsymbol
  | operator op =>
    have hsymbol := symbol?_operator hs
    cases op with
    | div =>
      refine lexemes?_of_lexeme? (by simp [spelling, BinaryOp.text]) (skipBlank_slash hs) ?_
      exact hsymbol
    | _ => exact lexemes?_symbol rfl (by decide) rfl rfl (by decide) hsymbol

end Lexeme

/-! Blank text. -/

/-- White space and comments, each comment closed. -/
inductive Blank : List Char → Prop
  | nil : Blank []
  | space {c : Char} {s : List Char} (space : isSpace c = true) (blank : Blank s) : Blank (c :: s)
  | line {body s : List Char} (inside : '\n' ∉ body) (blank : Blank s) :
      Blank ('/' :: '/' :: (body ++ '\n' :: s))
  | comment {body s : List Char} (inside : ¬['*', '/'] <:+: body) (blank : Blank s) :
      Blank ('/' :: '*' :: (body ++ '*' :: '/' :: s))

theorem closeComment?_body {body : List Char} (h : ¬['*', '/'] <:+: body) (rest : List Char) :
    closeComment? (body ++ '*' :: '/' :: rest) = some rest := by
  induction body with
  | nil => rfl
  | cons c body ih =>
    have htail : ¬['*', '/'] <:+: body := fun hi => h (hi.trans (List.suffix_cons c body).isInfix)
    rw [List.cons_append]
    unfold closeComment?
    split
    next he => cases he
    next r he =>
      cases body with
      | nil => cases he
      | cons d body =>
        cases he
        exact absurd ⟨[], body, rfl⟩ h
    next he =>
      cases he
      exact ih htail

theorem skipBlank_line {body : List Char} (h : '\n' ∉ body) (s : List Char) :
    skipBlank ('/' :: '/' :: (body ++ '\n' :: s)) = skipBlank s := by
  have hdrop : (body ++ '\n' :: s).dropWhile (· != '\n') = '\n' :: s := by
    refine dropWhile_ended (by simp) fun c hc => ?_
    simp only [bne_iff_ne]
    rintro rfl
    exact h hc
  rw [skipBlank.eq_2, hdrop, skipBlank_space s rfl]

theorem skipBlank_comment {body : List Char} (h : ¬['*', '/'] <:+: body) (s : List Char) :
    skipBlank ('/' :: '*' :: (body ++ '*' :: '/' :: s)) = skipBlank s := by
  rw [skipBlank.eq_3]
  split
  next r hr =>
    rw [closeComment?_body h s] at hr
    cases hr
    rfl
  next hr =>
    rw [closeComment?_body h s] at hr
    cases hr

theorem Blank.skipBlank_append {g : List Char} (h : Blank g) (s : List Char) :
    skipBlank (g ++ s) = skipBlank s := by
  induction h with
  | nil => rfl
  | space hc _ ih => rw [List.cons_append, skipBlank_space _ hc, ih]
  | line hbody _ ih =>
    simp only [List.cons_append, List.append_assoc]
    rw [skipBlank_line hbody, ih]
  | comment hbody _ ih =>
    simp only [List.cons_append, List.append_assoc]
    rw [skipBlank_comment hbody, ih]

theorem Blank.lexemes?_append {g : List Char} (h : Blank g) (s : List Char) :
    lexemes? (g ++ s) = lexemes? s := by
  unfold lexemes?
  rw [scan?_eq, scan?_eq s, h.skipBlank_append]

/-! Layouts. -/

/-- Lexemes, each with the blank text behind it. -/
abbrev Layout := List (Lexeme × List Char)

namespace Layout

def chars (t : Layout) : List Char := t.flatMap fun p => p.1.spelling ++ p.2

def lexemes (t : Layout) : List Lexeme := t.map Prod.fst

/-- Whether there is only blank text between the lexemes, comments in it set off by white space. -/
def Spaced (t : Layout) : Prop := ∀ p ∈ t, Blank p.2 ∧ ∀ c ∈ p.2.head?, isSpace c = true

/-- Whether lexemes with nothing between them are read as themselves. -/
def Apart (t : Layout) : Prop := t.IsChain fun p q => p.2 = [] → p.1.apart q.1 = true

variable {t : Layout} {p : Lexeme × List Char}

theorem endsAt_chars (hspelled : ∀ q ∈ p :: t, q.1.Spelled) (hspaced : Spaced (p :: t))
    (hapart : Apart (p :: t)) : p.1.EndsAt (p.2 ++ chars t) := by
  induction t generalizing p with
  | nil =>
    obtain ⟨l, gap⟩ := p
    cases gap with
    | nil => exact l.endsAt_nil
    | cons c g => exact l.endsAt_space ((hspaced _ List.mem_cons_self).2 c rfl)
  | cons q t ih =>
    obtain ⟨l, gap⟩ := p
    cases gap with
    | nil =>
      obtain ⟨hl, hchain⟩ := List.isChain_cons_cons.1 hapart
      have hq := ih (fun r hr => hspelled r (List.mem_cons_of_mem _ hr))
        (fun r hr => hspaced r (List.mem_cons_of_mem _ hr)) hchain
      simpa [chars] using Lexeme.endsAt_spelling
        (hspelled q (List.mem_cons_of_mem _ List.mem_cons_self)) hq (hl rfl)
    | cons c g => exact l.endsAt_space ((hspaced _ List.mem_cons_self).2 c rfl)

/-- A layout scans to its lexemes. -/
theorem lexemes?_chars (hspelled : ∀ q ∈ t, q.1.Spelled) (hspaced : Spaced t) (hapart : Apart t) :
    lexemes? (chars t) = some (lexemes t) := by
  induction t with
  | nil => exact lexemes?_nil
  | cons p t ih =>
    have hends := endsAt_chars hspelled hspaced hapart
    have hrest := ih (fun q hq => hspelled q (List.mem_cons_of_mem _ hq))
      (fun q hq => hspaced q (List.mem_cons_of_mem _ hq)) hapart.tail
    have hblank := (hspaced p List.mem_cons_self).1.lexemes?_append (chars t)
    have hread := Lexeme.lexemes?_spelling (hspelled p List.mem_cons_self) hends
    rw [hblank, hrest] at hread
    simpa [chars, lexemes, prepend] using hread

end Layout

end ScopeBlocks.Script
