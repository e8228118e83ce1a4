import ScopeBlocks.Proofs.Script.Lexing
import ScopeBlocks.Workspace.Import

/-! Coordinates as documents hold them. A whole number that is written in decimal is read as the nearest
binary64 number and rounded back, so a word comes back as itself where that number has its value. -/
namespace ScopeBlocks

theorem Text.trimChars_of_solid {s : List Char} (h : ∀ c ∈ s, isBlank c = false) :
    trimChars s = s := by
  have hdrop : ∀ l : List Char, (∀ c ∈ l, isBlank c = false) → l.dropWhile isBlank = l := by
    intro l hl
    cases l with
    | nil => rfl
    | cons c l => rw [List.dropWhile_cons_of_neg (by simp [hl c List.mem_cons_self])]
  rw [trimChars, hdrop s h, dropEndWhile, hdrop s.reverse (fun c hc => h c (List.mem_reverse.1 hc)),
    List.reverse_reverse]

theorem not_isBlank_of_isDigit {c : Char} (h : c.isDigit = true) : Text.isBlank c = false := by
  simp only [Char.isDigit, Bool.and_eq_true, decide_eq_true_eq, UInt32.le_iff_toNat_le] at h
  have hlow : 48 ≤ c.toNat := h.1
  have hhigh : c.toNat ≤ 57 := h.2
  simp only [Text.isBlank, Bool.or_eq_false_iff, Bool.and_eq_false_iff, decide_eq_false_iff_not,
    beq_eq_false_iff_ne]
  omega

namespace Decimal

theorem read?_digits {ds : List Char} (hne : ds ≠ []) (h : ∀ c ∈ ds, c.isDigit = true) :
    read? ds = some ⟨ofDigits ds, 0⟩ := by
  have htake : ds.takeWhile Char.isDigit = ds := by
    rw [← List.append_nil ds, List.takeWhile_append_of_pos h, List.takeWhile_nil]
  have hdrop : ds.dropWhile Char.isDigit = [] := by
    rw [← List.append_nil ds, List.dropWhile_append_of_pos h, List.dropWhile_nil]
  simp [read?, htake, hdrop, hne, exponent?]

end Decimal

namespace Number

theorem readUnsigned?_digits {negative : Bool} {ds : List Char} (hne : ds ≠ [])
    (h : ∀ c ∈ ds, c.isDigit = true) :
    readUnsigned? negative ds = some (Decimal.toNumber negative ⟨Decimal.ofDigits ds, 0⟩) := by
  obtain ⟨c, rest, rfl⟩ := List.exists_cons_of_ne_nil hne
  have hc := h c List.mem_cons_self
  have hlower : c.toLower = c := by
    simp only [Char.isDigit, Bool.and_eq_true, decide_eq_true_eq] at hc
    exact dif_neg fun hup => absurd (UInt32.le_trans hup.1 hc.2) (by decide)
  have hword : ∀ {d ds}, (c :: rest).map Char.toLower = d :: ds → d.isDigit = true := by
    intro d ds heq
    rw [List.map_cons, hlower] at heq
    exact (List.cons.inj heq).1 ▸ hc
  rw [readUnsigned?]
  split
  next heq => exact absurd (hword heq) (by decide)
  next heq => exact absurd (hword heq) (by decide)
  next heq => exact absurd (hword heq) (by decide)
  next => rw [Decimal.read?_digits hne h]; rfl

theorem readChars?_digits {ds : List Char} (hne : ds ≠ []) (h : ∀ c ∈ ds, c.isDigit = true) :
    readChars? ds = readUnsigned? false ds := by
  rw [readChars?]
  · rintro rest rfl
    exact absurd (h _ List.mem_cons_self) (by decide)
  · rintro rest rfl
    exact absurd (h _ List.mem_cons_self) (by decide)

theorem roundBetween_whole {low high : Int} {negative : Bool} {n : Nat}
    (hk : Representable (n * unit)) :
    (Number.finite negative (n * unit) hk).roundBetween low high = max low (min high (signed negative n)) := by
  have hround : (2 * (n * unit) + unit) / (2 * unit) = n := by
    rw [show 2 * (n * unit) + unit = (2 * n + 1) * unit by
        rw [Nat.add_mul, Nat.one_mul, Nat.mul_assoc],
      Nat.mul_div_mul_right _ _ unit_pos]
    omega
  simp only [roundBetween, hround]

end Number

namespace Import

open Number (Representable)

theorem readUnsigned?_toDigits (negative : Bool) {n : Nat} (hk : Representable (n * Number.unit)) :
    Number.readUnsigned? negative (Nat.toDigits 10 n) = some (.finite negative _ hk) := by
  have hvalue : Decimal.ofDigits (Nat.toDigits 10 n) = n := by
    rw [Script.Token.ofDigits_eq]
    exact Nat.ofDigitChars_ten_toDigits
  rw [Number.readUnsigned?_digits Nat.toDigits_ne_nil (fun c => Nat.isDigit_of_mem_toDigits (by decide) (by decide)),
    hvalue, Number.toNumber_whole rfl hk]

theorem coordinate_of_read {text : String} (negative : Bool) {n : Nat}
    (hk : Representable (n * Number.unit)) (hsolid : ∀ c ∈ text.toList, Text.isBlank c = false)
    (hread : Number.readChars? text.toList = some (.finite negative _ hk))
    (hsize : Word.isSigned (Number.signed negative n) = true) :
    coordinate text = .ok (Number.signed negative n) := by
  have hbounds : -Word.half ≤ Number.signed negative n ∧ Number.signed negative n < Word.half := by
    simpa [Word.isSigned] using hsize
  rw [coordinate, Text.trimChars_of_solid hsolid]
  simp only [hread, Number.roundBetween_whole]
  congr 1
  omega

/-- A word that is a binary64 number is read as it was written. -/
theorem coordinate_toString {x : Int} (hx : Word.isSigned x = true)
    (hk : Representable (x.natAbs * Number.unit)) : coordinate (toString x) = .ok x := by
  have hdigit : ∀ {n : Nat}, ∀ c ∈ Nat.toDigits 10 n, c.isDigit = true := fun c hc =>
    Nat.isDigit_of_mem_toDigits (by decide) (by decide) hc
  cases x with
  | ofNat n =>
    have htext : (toString (Int.ofNat n)).toList = Nat.toDigits 10 n := Nat.toList_repr
    apply coordinate_of_read false hk _ _ hx
    · rw [htext]
      exact fun c hc => not_isBlank_of_isDigit (hdigit c hc)
    · rw [htext, Number.readChars?_digits Nat.toDigits_ne_nil hdigit]
      exact readUnsigned?_toDigits false hk
  | negSucc n =>
    have htext : (toString (Int.negSucc n)).toList = '-' :: Nat.toDigits 10 (n + 1) := by
      change ("-" ++ Nat.repr (n + 1)).toList = _
      rw [String.toList_append, Nat.toList_repr]
      rfl
    apply coordinate_of_read true hk _ _ hx
    · rw [htext]
      intro c hc
      rcases List.mem_cons.1 hc with rfl | hc
      · decide
      · exact not_isBlank_of_isDigit (hdigit c hc)
    · rw [htext, Number.readChars?]
      exact readUnsigned?_toDigits true hk

end Import

end ScopeBlocks
