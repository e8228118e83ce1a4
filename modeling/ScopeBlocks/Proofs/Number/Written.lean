import ScopeBlocks.Proofs.Number.Counting

/-! Finite numbers, whose text is a decimal in full and whose order is that of their values. -/
namespace ScopeBlocks.Number

def AreDigits (text : List Char) : Prop := text ≠ [] ∧ ∀ c ∈ text, c.isDigit = true

/-- Digits in full, after a minus or none, with more digits after a point or none. -/
inductive PlainDecimal : List Char → Prop
  | whole (negative : Bool) {digits : List Char} (h : AreDigits digits) :
      PlainDecimal (sign negative ++ digits)
  | fraction (negative : Bool) {digits places : List Char} (h : AreDigits digits)
      (hplaces : AreDigits places) : PlainDecimal (sign negative ++ (digits ++ '.' :: places))

theorem areDigits_toDigits (n : Nat) : AreDigits (Nat.toDigits 10 n) :=
  ⟨Nat.toDigits_ne_nil, fun _ h => Nat.isDigit_of_mem_toDigits (by decide) (by decide) h⟩

theorem AreDigits.append_zeros {digits : List Char} (h : AreDigits digits) (n : Nat) :
    AreDigits (digits ++ List.replicate n '0') := by
  refine ⟨List.append_ne_nil_of_left_ne_nil h.1 _, fun c hc => ?_⟩
  rcases List.mem_append.1 hc with hc | hc
  · exact h.2 c hc
  · rw [List.eq_of_mem_replicate hc]
    decide

theorem AreDigits.zeros_append {digits : List Char} (h : AreDigits digits) (n : Nat) :
    AreDigits (List.replicate n '0' ++ digits) := by
  refine ⟨List.append_ne_nil_of_right_ne_nil _ h.1, fun c hc => ?_⟩
  rcases List.mem_append.1 hc with hc | hc
  · rw [List.eq_of_mem_replicate hc]
    decide
  · exact h.2 c hc

theorem positional_plain (negative : Bool) (d : Decimal) :
    PlainDecimal (sign negative ++ positional d) := by
  have hdigits : AreDigits d.digits := areDigits_toDigits d.coefficient
  unfold positional
  dsimp only
  split
  next => exact .whole negative (hdigits.append_zeros _)
  next hexponent =>
    split
    next hlt =>
      have hbefore : d.digits.take (d.digits.length - (-d.exponent).toNat) ≠ [] :=
        List.ne_nil_of_length_pos (by rw [List.length_take]; omega)
      have hafter : d.digits.drop (d.digits.length - (-d.exponent).toNat) ≠ [] :=
        List.ne_nil_of_length_pos (by rw [List.length_drop]; omega)
      exact .fraction negative ⟨hbefore, fun c hc => hdigits.2 c (List.mem_of_mem_take hc)⟩
        ⟨hafter, fun c hc => hdigits.2 c (List.mem_of_mem_drop hc)⟩
    next => exact .fraction negative (areDigits_toDigits 0) (hdigits.zeros_append _)

/-- No word and no exponent stands in the text of a finite number. -/
theorem textChars_plain {x : Number} (h : x.isFinite = true) : PlainDecimal x.textChars := by
  cases x with
  | nan | infinite => cases h
  | finite negative steps exact =>
    unfold textChars
    dsimp only
    split
    next => exact .whole false (areDigits_toDigits 0)
    next =>
      split
      next => exact .whole negative (areDigits_toDigits _)
      next => exact positional_plain negative _

theorem le_iff_value_le {x y : Number} (hx : x.isFinite = true) (hy : y.isFinite = true) :
    x.le y = true ↔ x.value ≤ y.value := by
  cases x with
  | nan | infinite => cases hx
  | finite s a _ =>
    cases y with
    | nan | infinite => cases hy
    | finite t b _ =>
      have hvalue : (signed s a : ℚ) / (unit : ℚ) ≤ (signed t b : ℚ) / (unit : ℚ) ↔
          signed s a ≤ signed t b := by
        rw [div_le_div_iff_of_pos_right unit_pos_rat, Int.cast_le]
      rw [value, value, hvalue, le, compare?]
      exact Std.isLE_compare

theorem value_zero : zero.value = 0 := by
  rw [zero, value, signed, if_neg Bool.false_ne_true, Nat.cast_zero, Int.cast_zero, zero_div]

end ScopeBlocks.Number
