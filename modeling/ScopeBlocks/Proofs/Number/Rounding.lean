import Mathlib.Tactic.Linarith
import Mathlib.Tactic.Ring
import ScopeBlocks.Number.Shortest

/-! Rounding near a number. A quantity within half a step of a count of steps is rounded to that count,
where the steps above a power of two are twice as wide as those below it. -/
namespace ScopeBlocks.Number

/-- A quotient within half a unit of a whole number is rounded to it, a half only to an even one. -/
theorem nearest_eq {num den m : Nat} (hden : 0 < den) (low : 2 * (m * den) ≤ 2 * num + den)
    (high : 2 * num ≤ 2 * (m * den) + den)
    (tie : m % 2 = 0 ∨ (2 * (m * den) < 2 * num + den ∧ 2 * num < 2 * (m * den) + den)) :
    nearest num den = m := by
  rcases Nat.lt_or_ge num (m * den) with h | h
  · obtain ⟨p, rfl⟩ : ∃ p, m = p + 1 := by
      cases m with
      | zero => simp at h
      | succ p => exact ⟨p, rfl⟩
    have hs : (p + 1) * den = p * den + den := Nat.succ_mul p den
    have hq : num / den = p := Nat.div_eq_of_lt_le (by omega) h
    have hr : num % den = num - p * den := by rw [Nat.mod_eq_sub_div_mul, hq]
    unfold nearest
    simp only [hq, hr]
    rw [if_pos (by omega)]
  · have hq : num / den = m := Nat.div_eq_of_lt_le h (by rw [Nat.succ_mul]; omega)
    have hr : num % den = num - m * den := by rw [Nat.mod_eq_sub_div_mul, hq]
    unfold nearest
    simp only [hq, hr]
    rw [if_neg (by omega)]

theorem nearest_mul_right (num den : Nat) {m : Nat} (hm : 0 < m) :
    nearest (num * m) (den * m) = nearest num den := by
  unfold nearest
  simp only [Nat.mul_div_mul_right _ _ hm, Nat.mul_mod_mul_right]
  have hlt : den * m < 2 * (num % den * m) ↔ den < 2 * (num % den) := by
    rw [← Nat.mul_assoc, Nat.mul_lt_mul_right hm]
  have heq : 2 * (num % den * m) = den * m ↔ 2 * (num % den) = den := by
    rw [← Nat.mul_assoc, Nat.mul_left_inj (by omega)]
  simp only [hlt, heq]

theorem roundSteps_mul_right (num den : Nat) {m : Nat} (hm : 0 < m) :
    roundSteps (num * m) (den * m) = roundSteps num den := by
  unfold roundSteps
  simp only [Nat.mul_div_mul_right _ _ hm]
  rw [Nat.mul_right_comm, nearest_mul_right _ _ hm]

theorem ofSteps_mul_right (negative : Bool) (num den : Nat) {m : Nat} (hm : 0 < m) :
    ofSteps negative (num * m) (den * m) = ofSteps negative num den := by
  unfold ofSteps
  simp only [roundSteps_mul_right num den hm]

theorem roundSteps_zero (den : Nat) : roundSteps 0 den = 0 := by
  simp [roundSteps, nearest]

theorem ofSteps_zero (negative : Bool) (den : Nat) :
    ofSteps negative 0 den = .signedZero negative := by
  unfold ofSteps
  simp only [roundSteps_zero]
  exact dif_pos representable_zero.1

theorem ofNat_zero : ofNat 0 = .zero := by
  unfold ofNat ofRatio
  rw [Nat.zero_mul, ofSteps_zero]
  rfl

/-! How wide the steps around a count are. -/

theorem spacing_eq_of_log2 {y k : Nat} (h : y.log2 = k.log2) : spacing y = spacing k := by
  unfold spacing excess
  rw [h]

theorem log2_eq_of_le_of_lt {y n : Nat} (low : 2 ^ n ≤ y) (high : y < 2 ^ (n + 1)) :
    y.log2 = n :=
  (Nat.log2_eq_iff (by have := Nat.two_pow_pos n; omega)).2 ⟨low, high⟩

theorem excess_le {y k : Nat} (h : y ≤ k) : excess y ≤ excess k := by
  rcases Nat.eq_zero_or_pos y with rfl | hy
  · simp [excess, Nat.log2_zero]
  · have : y.log2 ≤ k.log2 :=
      (Nat.le_log2 (by omega)).2 (Nat.le_trans (Nat.log2_self_le (by omega)) h)
    unfold excess
    omega

theorem spacing_of_excess_zero {k : Nat} (h : excess k = 0) : spacing k = 1 := by
  unfold spacing
  rw [h]

theorem spacing_le {k : Nat} (hk : Representable k) (h0 : 0 < k) : spacing k ≤ k :=
  Nat.le_of_dvd h0 hk.2

theorem log2_of_excess {k : Nat} (h : excess k ≠ 0) : k.log2 = excess k + 52 := by
  unfold excess at *
  omega

theorem spacing_dvd_pow {k n : Nat} (h : excess k ≤ n) : spacing k ∣ 2 ^ n := Nat.pow_dvd_pow 2 h

theorem spacing_above {k y : Nat} (hk : Representable k) (low : k ≤ y) (high : y < k + spacing k) :
    spacing y = spacing k := by
  rcases Nat.eq_zero_or_pos (excess k) with h | h
  · have := spacing_of_excess_zero h
    rw [show y = k by omega]
  · have h0 : k ≠ 0 := by rintro rfl; simp [excess, Nat.log2_zero] at h
    have hl := log2_of_excess (Nat.pos_iff_ne_zero.1 h)
    have hlow : 2 ^ k.log2 ≤ k := Nat.log2_self_le h0
    have hhigh : k < 2 ^ (k.log2 + 1) := Nat.lt_log2_self
    have hdvd : spacing k ∣ 2 ^ (k.log2 + 1) := spacing_dvd_pow (by omega)
    have hgap : k + spacing k ≤ 2 ^ (k.log2 + 1) := by
      have := Nat.le_of_dvd (by omega) (Nat.dvd_sub hdvd hk.2)
      omega
    exact spacing_eq_of_log2 (log2_eq_of_le_of_lt (by omega) (by omega))

theorem spacing_below {k y : Nat} (hk : Representable k)
    (hpow : ¬(excess k ≠ 0 ∧ k = 2 ^ k.log2)) (low : k ≤ y + spacing k) (high : y ≤ k) :
    spacing y = spacing k := by
  rcases Nat.eq_zero_or_pos (excess k) with h | h
  · rw [spacing_of_excess_zero h, spacing_of_excess_zero (by have := excess_le high; omega)]
  · have h0 : k ≠ 0 := by rintro rfl; simp [excess, Nat.log2_zero] at h
    have hl := log2_of_excess (Nat.pos_iff_ne_zero.1 h)
    have hlow : 2 ^ k.log2 ≤ k := Nat.log2_self_le h0
    have hhigh : k < 2 ^ (k.log2 + 1) := Nat.lt_log2_self
    have hne : k ≠ 2 ^ k.log2 := fun he => hpow ⟨by omega, he⟩
    have hdvd : spacing k ∣ 2 ^ k.log2 := spacing_dvd_pow (by omega)
    have hgap : 2 ^ k.log2 + spacing k ≤ k := by
      have := Nat.le_of_dvd (by omega) (Nat.dvd_sub hk.2 hdvd)
      omega
    exact spacing_eq_of_log2 (log2_eq_of_le_of_lt (by omega) (by omega))

theorem spacing_below_pow {k y : Nat} (hex : excess k ≠ 0) (hpow : k = 2 ^ k.log2)
    (low : k ≤ 2 * y) (high : y < k) : 2 * spacing y = spacing k := by
  have hl := log2_of_excess hex
  obtain ⟨n, hn⟩ : ∃ n, k.log2 = n + 1 := ⟨excess k + 51, by omega⟩
  rw [hn, Nat.pow_succ] at hpow
  have hy : y.log2 = n := log2_eq_of_le_of_lt (by omega) (by rw [Nat.pow_succ]; omega)
  have he : excess k = excess y + 1 := by
    unfold excess at *
    omega
  unfold spacing
  rw [he, Nat.mul_comm]
  rfl

/-! What rounds to a count of steps. -/

variable {k num den : Nat}

/-- The count that a quantity rounds to, from steps of a width that its own whole part has. -/
theorem roundSteps_eq {m w : Nat} (hden : 0 < den) (hw : spacing (num / den) = w)
    (low : 2 * (m * w * den) ≤ 2 * num + w * den) (high : 2 * num ≤ 2 * (m * w * den) + w * den)
    (tie : m % 2 = 0 ∨ (2 * (m * w * den) < 2 * num + w * den ∧
      2 * num < 2 * (m * w * den) + w * den)) :
    roundSteps num den = m * w := by
  have hcomm : den * w = w * den := Nat.mul_comm _ _
  have hassoc : m * (w * den) = m * w * den := (Nat.mul_assoc _ _ _).symm
  have hpos : 0 < w * den := Nat.mul_pos (by rw [← hw]; exact spacing_pos _) hden
  unfold roundSteps
  dsimp only
  rw [hw, hcomm, nearest_eq hpos (by rw [hassoc]; exact low) (by rw [hassoc]; exact high)
    (by rw [hassoc]; exact tie)]

theorem roundSteps_of_above (hk : Representable k) (hden : 0 < den) (low : k * den ≤ num)
    (high : 2 * num ≤ (2 * k + spacing k) * den)
    (tie : k / spacing k % 2 = 0 ∨ 2 * num < (2 * k + spacing k) * den) :
    roundSteps num den = k := by
  have hpos := Nat.mul_pos (spacing_pos k) hden
  have hmul : k / spacing k * spacing k = k := Nat.div_mul_cancel hk.2
  have hsum : (2 * k + spacing k) * den = 2 * (k * den) + spacing k * den := by ring
  have hy : k ≤ num / den := (Nat.le_div_iff_mul_le hden).2 low
  have hy' : num / den < k + spacing k := by
    rw [Nat.div_lt_iff_lt_mul hden, Nat.add_mul]
    omega
  have h := roundSteps_eq (m := k / spacing k) hden (spacing_above hk hy hy')
  rw [hmul] at h
  exact h (by omega) (by omega) (tie.imp_right fun ht => ⟨by omega, by omega⟩)

theorem roundSteps_of_below (hk : Representable k) (hden : 0 < den)
    (hpow : ¬(excess k ≠ 0 ∧ k = 2 ^ k.log2)) (low : 2 * (k * den) ≤ 2 * num + spacing k * den)
    (high : num < k * den)
    (tie : k / spacing k % 2 = 0 ∨ 2 * (k * den) < 2 * num + spacing k * den) :
    roundSteps num den = k := by
  have hmul : k / spacing k * spacing k = k := Nat.div_mul_cancel hk.2
  have hy : k ≤ num / den + spacing k := by
    have hnum : num < (num / den + 1) * den := by
      rw [Nat.mul_comm]
      exact Nat.lt_mul_div_succ num hden
    have hlt : 2 * k < 2 * (num / den) + 2 + spacing k := by
      refine Nat.lt_of_mul_lt_mul_right (a := den) ?_
      nlinarith
    have := spacing_pos k
    omega
  have hy' : num / den ≤ k := Nat.le_of_lt ((Nat.div_lt_iff_lt_mul hden).2 high)
  have h := roundSteps_eq (m := k / spacing k) hden (spacing_below hk hpow hy hy')
  rw [hmul] at h
  exact h (by omega) (by omega) (tie.imp_right fun ht => ⟨by omega, by omega⟩)

theorem roundSteps_of_below_pow (hk : Representable k) (hden : 0 < den) (hex : excess k ≠ 0)
    (hpow : k = 2 ^ k.log2) (low : 4 * (k * den) ≤ 4 * num + spacing k * den)
    (high : num < k * den) : roundSteps num den = k := by
  have hlow : k ≤ 2 * (num / den) := by
    have hle := Nat.mul_le_mul_right den (spacing_le hk (by rw [hpow]; exact Nat.two_pow_pos _))
    have hnum : num < (num / den + 1) * den := by
      rw [Nat.mul_comm]
      exact Nat.lt_mul_div_succ num hden
    have hlt : 3 * k < 4 * (num / den + 1) := by
      refine Nat.lt_of_mul_lt_mul_right (a := den) ?_
      nlinarith
    have hl := log2_of_excess hex
    have hbig : 2 ^ 53 ≤ k := by
      rw [hpow]
      exact Nat.pow_le_pow_right (by decide) (by omega)
    omega
  have hw := spacing_below_pow hex hpow hlow ((Nat.div_lt_iff_lt_mul hden).2 high)
  obtain ⟨m, hm⟩ := hk.2
  have hk2 : 2 * m * spacing (num / den) = k := by
    rw [hm, ← hw]
    ring
  have hwd : spacing k * den = 2 * (spacing (num / den) * den) := by
    rw [← hw]
    ring
  have h := roundSteps_eq (m := 2 * m) hden (Eq.refl (spacing (num / den)))
  rw [hk2] at h
  exact h (by omega) (by omega) (.inl (by omega))

/-- What counts as rounding to a count of steps is rounded to it. -/
theorem roundSteps_of_roundsTo (hk : Representable k) (h0 : 0 < k) (hden : 0 < den)
    (h : roundsTo k num den = true) : roundSteps num den = k := by
  have hsp := spacing_le hk h0
  have habove : (4 * k + quarterStepsAbove k) * den = 2 * ((2 * k + spacing k) * den) := by
    unfold quarterStepsAbove
    ring
  have hsum : (2 * k + spacing k) * den = 2 * (k * den) + spacing k * den := by ring
  unfold roundsTo at h
  dsimp only at h
  rw [habove] at h
  rcases Nat.lt_or_ge num (k * den) with hlt | hge
  · by_cases hp : excess k ≠ 0 ∧ k = 2 ^ k.log2
    · have hb : quarterStepsBelow k = spacing k := if_pos hp
      have hlow : (4 * k - quarterStepsBelow k) * den = 4 * (k * den) - spacing k * den := by
        rw [hb, Nat.sub_mul, Nat.mul_assoc]
      rw [hlow] at h
      refine roundSteps_of_below_pow hk hden hp.1 hp.2 ?_ hlt
      split at h <;> simp only [Bool.and_eq_true, decide_eq_true_eq] at h <;> omega
    · have hb : quarterStepsBelow k = 2 * spacing k := if_neg hp
      have hlow : (4 * k - quarterStepsBelow k) * den = 4 * (k * den) - 2 * (spacing k * den) := by
        rw [hb, Nat.sub_mul, Nat.mul_assoc, Nat.mul_assoc]
      rw [hlow] at h
      split at h <;> simp only [Bool.and_eq_true, decide_eq_true_eq] at h
      · exact roundSteps_of_below hk hden hp (by omega) hlt (.inl ‹_›)
      · exact roundSteps_of_below hk hden hp (by omega) hlt (.inr (by omega))
  · split at h <;> simp only [Bool.and_eq_true, decide_eq_true_eq] at h
    · exact roundSteps_of_above hk hden hge (by omega) (.inl ‹_›)
    · exact roundSteps_of_above hk hden hge (by omega) (.inr (by omega))

end ScopeBlocks.Number
