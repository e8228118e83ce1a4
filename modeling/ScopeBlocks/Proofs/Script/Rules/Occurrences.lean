import ScopeBlocks.Proofs.Script.Rules.AcceptedStatements

/-! Where the uses of a text stand: each of them has its word in the text, at its place. -/
namespace ScopeBlocks.Script.Rules

namespace Use

def place : Use → List Char
  | .name _ place | .callee _ place | .jump _ _ place => place

def word : Use → String
  | .name text _ | .callee text _ => text
  | .jump word _ _ => word.text

/-- A place of the text from which the word goes on. -/
def Stands (source : List Char) (u : Use) : Prop :=
  u.word.toList <+: u.place ∧ u.place <:+ source

end Use

/-- Tokens that a text has with their lexemes. -/
def Standing (source : List Char) (ts : List Token) : Prop :=
  ∀ t ∈ ts, t.place <:+ source ∧ ∃ r, Token.lexeme? t.place = some (t.lexeme, r)

variable {source : List Char} {ts rest : List Token} {t : Token}

theorem Standing.of_suffix (h : Standing source ts) (hrest : rest <:+ ts) : Standing source rest :=
  fun t ht => h t (hrest.subset ht)

theorem prefix_of_name {x : String} {place r : List Char} (h : Token.lexeme? place = some (.name x, r)) :
    x.toList <+: place := by
  rcases Token.lexeme?_cases h with ⟨hx, hplace⟩ | ⟨_, _, hx, -⟩ | ⟨_, _, hx, -⟩ | hsymbol
  · unfold Token.word at hx
    split at hx <;> cases hx
    exact ⟨r, by rw [String.toList_ofList, ← hplace]⟩
  · cases hx
  · cases hx
  · exact absurd rfl ((symbol?_ne hsymbol).1 x)

theorem prefix_of_keyword {w : Keyword} {place r : List Char}
    (h : Token.lexeme? place = some (.keyword w, r)) : w.text.toList <+: place := by
  rcases Token.lexeme?_cases h with ⟨hx, hplace⟩ | ⟨_, _, hx, -⟩ | ⟨_, _, hx, -⟩ | hsymbol
  · unfold Token.word at hx
    split at hx
    next hw =>
      cases hx
      have hword : w.text = String.ofList (place.takeWhile Token.isNameChar) :=
        beq_iff_eq.1 (List.find?_some (p := fun k : Keyword => k.text == _) hw)
      exact ⟨r, by rw [hword, String.toList_ofList, ← hplace]⟩
    next => cases hx
  · cases hx
  · cases hx
  · unfold Token.symbol? at hsymbol
    split at hsymbol <;> cases hsymbol

/-- That the uses in some pairs stand in the text. -/
def AllStand (source : List Char) (ps : List Pair) : Prop :=
  ∀ loops, ∀ u ∈ usesIn loops ps, u.Stands source

theorem ofToken_stands {s : Symbol} (h : s.accepts t.lexeme = true) (ht : Standing source (t :: rest)) :
    AllStand source [.ofToken s t] := by
  intro loops u hu
  rw [usesIn_cons, usesIn_nil, List.append_nil] at hu
  by_cases hs : s = .ident
  · subst hs
    obtain ⟨l, place⟩ := t
    obtain ⟨hplace, r, hr⟩ := ht _ List.mem_cons_self
    cases l with
    | name x =>
      rw [ident_uses hr, List.mem_singleton] at hu
      subst hu
      exact ⟨prefix_of_name hr, hplace⟩
    | _ => cases h
  · rw [ofToken_uses h hs] at hu
    cases hu

theorem AllStand.append {ps qs : List Pair} (hps : AllStand source ps) (hqs : AllStand source qs) :
    AllStand source (ps ++ qs) := by
  intro loops u hu
  rw [usesIn_append] at hu
  exact (List.mem_append.1 hu).elim (hps loops u) (hqs loops u)

theorem AllStand.rule {s : Symbol} {ps : List Pair} (hfits : Fits s.form ts (some (ps, rest)))
    (h : AllStand source ps) (hts : Standing source ts) :
    AllStand source [⟨s, placeOf ts, textOf ts rest, ps⟩] := by
  intro loops u hu
  rw [usesIn_cons, usesIn_nil, List.append_nil] at hu
  have plain (hs : s ∉ [.ident, .call, .fields, .breakStmt, .continueStmt, .whileStmt, .forStmt]) :
      u.Stands source := by
    rw [uses_plain hs] at hu
    exact h loops u hu
  have jump {w : Keyword} (hform : s.form = .seq (.word w) (.literal .semicolon))
      (hu : u = .jump w loops (placeOf ts)) : u.Stands source := by
    rw [hform, fits_seq] at hfits
    obtain ⟨_, _, _, hword, -⟩ := hfits
    obtain ⟨place, rfl, -⟩ := fits_word.1 hword
    obtain ⟨hplace, r, hr⟩ := hts _ List.mem_cons_self
    subst hu
    exact ⟨prefix_of_keyword hr, hplace⟩
  cases s with
  | ident =>
    obtain ⟨x, place, rfl, -⟩ := fits_ident.1 hfits
    obtain ⟨hplace, r, hr⟩ := hts _ List.mem_cons_self
    have htext : String.ofList (textOf (⟨.name x, place⟩ :: rest) rest) = x := by
      simpa [textOf, placeOf, Token.chars] using chars_name hr
    rw [Pair.uses, htext, List.mem_singleton] at hu
    subst hu
    exact ⟨prefix_of_name hr, hplace⟩
  | call =>
    obtain ⟨_, us, qs, hname, -, rfl⟩ := fits_seq.1 hfits
    obtain ⟨x, place, rfl, rfl⟩ := fits_ident.1 hname
    obtain ⟨hplace, r, hr⟩ := hts _ List.mem_cons_self
    have hstring : (Pair.ofToken .ident ⟨.name x, place⟩).string = x := chars_name hr
    rw [Pair.uses, List.singleton_append, calleeUses, argUses, hstring, List.singleton_append,
      List.mem_cons] at hu
    rcases hu with rfl | hu
    · exact ⟨prefix_of_name hr, hplace⟩
    · exact h loops u (by rw [usesIn_append]; exact List.mem_append_right _ hu)
  | fields =>
    rw [Pair.uses] at hu
    cases ps with
    | nil => cases hu
    | cons p ps => exact h loops u (by rw [usesIn_cons]; exact List.mem_append_left _ hu)
  | breakStmt =>
    rw [Pair.uses, List.mem_singleton] at hu
    exact jump rfl hu
  | continueStmt =>
    rw [Pair.uses, List.mem_singleton] at hu
    exact jump rfl hu
  | whileStmt =>
    rw [Pair.uses] at hu
    exact h _ u hu
  | forStmt =>
    rw [Pair.uses] at hu
    exact h _ u hu
  | _ => exact plain (by simp)

theorem fits_stand {f : Form} {r : Option (List Pair × List Token)} (h : Fits f ts r) :
    Standing source ts → ∀ ps rest, r = some (ps, rest) → AllStand source ps := by
  have empty : AllStand source [] := fun loops u hu => by
    rw [usesIn_nil] at hu
    cases hu
  induction h with
  | literal | stop | absent =>
    rintro - _ _ ⟨⟩
    exact empty
  | token h =>
    rintro hts _ _ ⟨⟩
    exact ofToken_stands h hts
  | ending =>
    rintro - _ _ ⟨⟩ loops u hu
    rw [usesIn_cons, usesIn_nil, uses_plain (by simp), usesIn_nil] at hu
    cases hu
  | rule h ih =>
    rintro hts _ _ ⟨⟩
    exact (ih hts _ _ rfl).rule h hts
  | left _ ih | present _ ih =>
    rintro hts _ _ ⟨⟩
    exact ih hts _ _ rfl
  | right _ _ _ ih => exact ih
  | seq first _ ih ih' | more first _ ih ih' =>
    rintro hts _ _ ⟨⟩
    exact (ih hts _ _ rfl).append (ih' (hts.of_suffix (first.suffix _ _ rfl)) _ _ rfl)
  | _ => rintro - _ _ ⟨⟩

theorem closeComment?_suffix {s r : List Char} (h : Token.closeComment? s = some r) : r <:+ s := by
  fun_induction Token.closeComment? s with
  | case1 => cases h
  | case2 =>
    cases h
    exact (List.suffix_cons _ _).trans (List.suffix_cons _ _)
  | case3 c s _ ih => exact (ih h).trans (List.suffix_cons c s)

theorem skipBlank_suffix (s : List Char) : Token.skipBlank s <:+ s := by
  fun_induction Token.skipBlank s with
  | case1 | case4 | case6 => exact List.suffix_rfl
  | case2 rest ih =>
    exact (ih.trans (List.dropWhile_suffix _)).trans
      ((List.suffix_cons _ _).trans (List.suffix_cons _ _))
  | case3 rest r h _ ih =>
    exact (ih.trans (closeComment?_suffix h)).trans ((List.suffix_cons _ _).trans (List.suffix_cons _ _))
  | case5 c rest _ _ _ ih => exact ih.trans (List.suffix_cons c rest)

theorem lexeme?_suffix {s r : List Char} {l : Lexeme} (h : Token.lexeme? s = some (l, r)) : r <:+ s := by
  rcases Token.lexeme?_cases h with ⟨-, hs⟩ | ⟨used, _, -, hs, -⟩ | ⟨q, raw, -, hs⟩ | hsymbol
  · exact ⟨_, hs.symm⟩
  · exact ⟨used, hs.symm⟩
  · exact ⟨q :: raw ++ [q], by rw [hs]; simp⟩
  · unfold Token.symbol? at hsymbol
    split at hsymbol <;> cases hsymbol <;>
      first | exact List.suffix_cons _ _ | exact (List.suffix_cons _ _).trans (List.suffix_cons _ _)

theorem standing_of_scan {text : List Char} {tokens : List Token} (h : Token.scan? text = some tokens)
    (hsource : text <:+ source) : Standing source tokens := by
  induction tokens generalizing text with
  | nil => exact fun t ht => by cases ht
  | cons t tokens ih =>
    have hblank := (skipBlank_suffix text).trans hsource
    rw [Token.scan?_eq] at h
    split at h
    next => cases h
    next c rest hskip =>
      rw [hskip] at hblank
      obtain ⟨⟨l, r⟩, hl, h⟩ := Option.bind_eq_some_iff.1 h
      obtain ⟨tokens', hscan, ⟨⟩⟩ := Option.map_eq_some_iff.1 h
      intro t ht
      rcases List.mem_cons.1 ht with rfl | ht
      · exact ⟨hblank, r, hl⟩
      · exact ih hscan ((lexeme?_suffix hl).trans hblank) t ht

/-- Every use of a text of the grammar has its word in it. -/
theorem uses_stand {text : List Char} {pairs : List Pair} (h : Grammatical text pairs) :
    ∀ u ∈ usesIn 0 pairs, u.Stands text := by
  obtain ⟨tokens, hscan, hprogram⟩ := h
  exact fits_stand hprogram (standing_of_scan hscan List.suffix_rfl) _ _ rfl 0

end ScopeBlocks.Script.Rules
