import Mathlib.Algebra.Order.Floor.Semiring
import Mathlib.Data.Rat.Floor
import Mathlib.Order.Compare
import ScopeBlocks.Proofs.Number.Shortest

/-! Counting up to a number. The whole numbers up to 2^53 are all held exactly, so that adding one to a smaller one
gives the next one, and one is less than a finite number just if it is less than the ceiling of its value. -/
namespace ScopeBlocks.Number

def value : Number → ℚ
  | .finite negative steps _ => (signed negative steps : ℚ) / (unit : ℚ)
  | _ => 0

theorem unit_pos_rat : (0 : ℚ) < (unit : ℚ) := Nat.cast_pos.2 unit_pos

theorem mantissaLimit_mul_unit_lt : mantissaLimit * unit < limit := by decide +kernel

theorem spacing_dvd_mul {k : Nat} (e : Nat) (h : k ≤ mantissaLimit) :
    spacing (k * Nat.pow 2 e) ∣ k * Nat.pow 2 e := by
  rcases Nat.lt_or_eq_of_le h with hlt | rfl
  · have hspacing : spacing (k * Nat.pow 2 e) ∣ Nat.pow 2 e :=
      spacing_dvd_of_lt (Nat.mul_lt_mul_of_pos_right hlt (pow_two_pos e))
    exact Dvd.dvd.mul_left hspacing k
  · have hhalf : mantissaLimit * Nat.pow 2 e = Nat.pow 2 52 * Nat.pow 2 (e + 1) := by
      change 2 ^ 53 * 2 ^ e = 2 ^ 52 * 2 ^ (e + 1)
      rw [← Nat.pow_add, ← Nat.pow_add]
      congr 1
      omega
    rw [spacing_mantissaLimit_mul, hhalf]
    exact Nat.dvd_mul_left _ _

theorem representable_whole {k : Nat} (h : k ≤ mantissaLimit) : Representable (k * unit) := by
  have hlt : k * unit < limit := Nat.lt_of_le_of_lt (Nat.mul_le_mul_right unit h) mantissaLimit_mul_unit_lt
  refine ⟨hlt, ?_⟩
  unfold unit
  exact spacing_dvd_mul depth h

theorem ofNat_whole {k : Nat} (h : k ≤ mantissaLimit) :
    ofNat k = .finite false (k * unit) (representable_whole h) :=
  ofNat_eq_finite rfl _

theorem value_ofNat {k : Nat} (h : k ≤ mantissaLimit) : (ofNat k).value = k := by
  rw [ofNat_whole h, value, signed, if_neg Bool.false_ne_true]
  push_cast
  exact mul_div_cancel_right₀ _ unit_pos_rat.ne'

theorem ofNat_add_one {k : Nat} (h : k < mantissaLimit) : (ofNat k).add (ofNat 1) = ofNat (k + 1) := by
  have hone : 1 ≤ mantissaLimit := Nat.one_le_of_lt h
  have hsum : k * unit + 1 * unit = (k + 1) * unit := (Nat.add_mul k 1 unit).symm
  rw [ofNat_whole (Nat.le_of_lt h), ofNat_whole hone, add, if_pos rfl, ofNat, ofRatio, hsum]

/-- A whole number is less than a finite one just if it is less than the ceiling of its value. -/
theorem ofNat_lt_iff {k : Nat} (h : k ≤ mantissaLimit) {x : Number} (hx : x.isFinite = true) :
    ((ofNat k).compare? x).any Ordering.isLT = decide (k < ⌈x.value⌉₊) := by
  cases x with
  | nan | infinite => cases hx
  | finite negative steps exact =>
    have hlt : compare ((k * unit : Nat) : Int) (signed negative steps) = .lt ↔
        (k : ℚ) < (signed negative steps : ℚ) / (unit : ℚ) := by
      rw [compare_lt_iff_lt, lt_div_iff₀ unit_pos_rat]
      exact_mod_cast Iff.rfl
    rw [ofNat_whole h, compare?, Option.any_some, signed, if_neg Bool.false_ne_true, Bool.eq_iff_iff,
      decide_eq_true_iff, Nat.lt_ceil, value, ← hlt]
    cases compare ((k * unit : Nat) : Int) (signed negative steps) <;> simp

end ScopeBlocks.Number
