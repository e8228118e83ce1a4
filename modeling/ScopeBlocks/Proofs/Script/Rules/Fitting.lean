import ScopeBlocks.Script.Rules

/-! How the forms of rules fit, taken apart: what fits a form is put together from what fits its parts, and
is taken from the front of the tokens. -/
namespace ScopeBlocks.Script.Rules

variable {f g : Form} {s : Symbol} {l : Lexeme} {ts rest : List Token} {ps : List Pair}

theorem fits_literal : Fits (.literal l) ts (some (ps, rest)) ↔
    ∃ place, ts = ⟨l, place⟩ :: rest ∧ ps = [] := by
  constructor
  · rintro ⟨⟩
    exact ⟨_, rfl, rfl⟩
  · rintro ⟨place, rfl, rfl⟩
    exact .literal (t := ⟨l, place⟩)

theorem fits_token : Fits (.token s) ts (some (ps, rest)) ↔
    ∃ t, s.accepts t.lexeme = true ∧ ts = t :: rest ∧ ps = [.ofToken s t] := by
  constructor
  · intro h
    cases h with
    | token h => exact ⟨_, h, rfl, rfl⟩
  · rintro ⟨t, h, rfl, rfl⟩
    exact .token h

theorem fits_ident : Fits (.token .ident) ts (some (ps, rest)) ↔
    ∃ x place, ts = ⟨.name x, place⟩ :: rest ∧ ps = [.ofToken .ident ⟨.name x, place⟩] := by
  rw [fits_token]
  constructor
  · rintro ⟨⟨l, place⟩, hl, rfl, rfl⟩
    cases l with
    | name x => exact ⟨x, place, rfl, rfl⟩
    | _ => cases hl
  · rintro ⟨x, place, rfl, rfl⟩
    exact ⟨_, rfl, rfl, rfl⟩

theorem fits_word {w : Keyword} : Fits (.word w) ts (some (ps, rest)) ↔
    ∃ place, ts = ⟨.keyword w, place⟩ :: rest ∧ ps = [.ofToken (.keyword w) ⟨.keyword w, place⟩] := by
  rw [Form.word, fits_token]
  constructor
  · rintro ⟨⟨l, place⟩, hl, rfl, rfl⟩
    cases l with
    | keyword v =>
      obtain rfl := beq_iff_eq.1 (show (w == v) = true from hl)
      exact ⟨place, rfl, rfl⟩
    | _ => cases hl
  · rintro ⟨place, rfl, rfl⟩
    exact ⟨⟨.keyword w, place⟩, beq_self_eq_true w, rfl, rfl⟩

theorem fits_ending : Fits .ending ts (some (ps, rest)) ↔
    ts = [] ∧ rest = [] ∧ ps = [⟨.ending, [], [], []⟩] := by
  constructor
  · rintro ⟨⟩
    exact ⟨rfl, rfl, rfl⟩
  · rintro ⟨rfl, rfl, rfl⟩
    exact .ending

theorem fits_rule : Fits (.rule s) ts (some (ps, rest)) ↔
    ∃ inner, Fits s.form ts (some (inner, rest)) ∧ ps = [⟨s, placeOf ts, textOf ts rest, inner⟩] := by
  constructor
  · intro h
    cases h with
    | rule h => exact ⟨_, h, rfl⟩
  · rintro ⟨inner, h, rfl⟩
    exact .rule h

theorem fits_seq : Fits (.seq f g) ts (some (ps, rest)) ↔
    ∃ qs mid rs, Fits f ts (some (qs, mid)) ∧ Fits g mid (some (rs, rest)) ∧ ps = qs ++ rs := by
  constructor
  · intro h
    cases h with
    | seq first second => exact ⟨_, _, _, first, second, rfl⟩
  · rintro ⟨qs, mid, rs, first, second, rfl⟩
    exact .seq first second

theorem fits_either : Fits (.either f g) ts (some (ps, rest)) ↔
    Fits f ts (some (ps, rest)) ∨ Fits f ts none ∧ Fits g ts (some (ps, rest)) := by
  constructor
  · intro h
    cases h with
    | left h => exact .inl h
    | right left h => exact .inr ⟨left, h⟩
  · rintro (h | ⟨left, h⟩)
    · exact .left h
    · exact .right left h

theorem fits_maybe : Fits (.maybe f) ts (some (ps, rest)) ↔
    Fits f ts (some (ps, rest)) ∨ Fits f ts none ∧ ps = [] ∧ rest = ts := by
  constructor
  · intro h
    cases h with
    | present h => exact .inl h
    | absent h => exact .inr ⟨h, rfl, rfl⟩
  · rintro (h | ⟨h, rfl, rfl⟩)
    · exact .present h
    · exact .absent h

/-- What a form leaves that fits several times, one after another. -/
inductive Repeats (f : Form) : List Token → List Pair → List Token → Prop
  | none (ts : List Token) : Repeats f ts [] ts
  | more {ts mid rest : List Token} {ps qs : List Pair} (h : Fits f ts (some (ps, mid)))
      (again : Repeats f mid qs rest) : Repeats f ts (ps ++ qs) rest

theorem fits_many : Fits (.many f) ts (some (ps, rest)) ↔ Repeats f ts ps rest ∧ Fits f rest none := by
  constructor
  · generalize hform : Form.many f = form
    generalize hr : some (ps, rest) = r
    intro h
    induction h generalizing ps with
    | stop h =>
      cases hform
      cases hr
      exact ⟨.none _, h⟩
    | more h _ _ ih =>
      cases hform
      cases hr
      obtain ⟨hagain, hstop⟩ := ih rfl rfl
      exact ⟨.more h hagain, hstop⟩
    | _ => cases hform
  · rintro ⟨hrepeats, hstop⟩
    induction hrepeats with
    | none => exact .stop hstop
    | more h _ ih => exact .more h (ih hstop)

/-- What fits is taken from the front of the tokens. -/
theorem Fits.suffix {r : Option (List Pair × List Token)} (h : Fits f ts r) :
    ∀ ps rest, r = some (ps, rest) → rest <:+ ts := by
  induction h with
  | literal | token =>
    rintro _ _ ⟨⟩
    exact List.suffix_cons _ _
  | ending =>
    rintro _ _ ⟨⟩
    exact List.suffix_rfl
  | rule _ ih | left _ ih | present _ ih =>
    rintro _ _ ⟨⟩
    exact ih _ _ rfl
  | right _ _ _ ih => exact ih
  | seq _ _ ih₁ ih₂ | more _ _ ih₁ ih₂ =>
    rintro _ _ ⟨⟩
    exact (ih₂ _ _ rfl).trans (ih₁ _ _ rfl)
  | stop | absent =>
    rintro _ _ ⟨⟩
    exact List.suffix_rfl
  | _ => rintro _ _ ⟨⟩

theorem Repeats.suffix (h : Repeats f ts ps rest) : rest <:+ ts := by
  induction h with
  | none => exact List.suffix_rfl
  | more h _ ih => exact ih.trans (h.suffix _ _ rfl)

end ScopeBlocks.Script.Rules
