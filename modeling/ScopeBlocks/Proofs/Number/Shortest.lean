import ScopeBlocks.Proofs.Number.Rounding

/-! The shortest digits of a number read back as that number. Seventeen digits always do, since two
neighbours on the grid of that many digits lie closer together than the steps around the number; and
that very large and very small decimals are not computed at all changes no result. -/
namespace ScopeBlocks

open Number

namespace Decimal

/-- The value of a decimal as a quotient. -/
def num (d : Decimal) : Nat := d.coefficient * Nat.pow 10 d.exponent.toNat

def den (d : Decimal) : Nat := Nat.pow 10 (-d.exponent).toNat

theorem pow_ten_mul (m n : Nat) : Nat.pow 10 m * Nat.pow 10 n = Nat.pow 10 (m + n) :=
  (Nat.pow_add 10 m n).symm

theorem pow_ten_succ (n : Nat) : Nat.pow 10 (n + 1) = Nat.pow 10 n * 10 := rfl

theorem pow_ten_le {m n : Nat} (h : m ≤ n) : Nat.pow 10 m ≤ Nat.pow 10 n :=
  Nat.pow_le_pow_right (by decide) h

theorem pow_ten_pos (n : Nat) : 0 < Nat.pow 10 n := Nat.pow_pos (by decide)

theorem den_pos (d : Decimal) : 0 < d.den := pow_ten_pos _

theorem coefficient_lt (d : Decimal) : d.coefficient < Nat.pow 10 d.digits.length :=
  (Nat.length_toDigits_le_iff (by decide) Nat.length_toDigits_pos).1 (Nat.le_refl _)

theorem le_coefficient {d : Decimal} (h : d.coefficient ≠ 0) :
    Nat.pow 10 (d.digits.length - 1) ≤ d.coefficient := by
  rcases Nat.eq_zero_or_pos (d.digits.length - 1) with hl | hl
  · rw [hl]
    exact Nat.pos_of_ne_zero h
  · refine Nat.le_of_not_lt fun hlt => ?_
    have := (Nat.length_toDigits_le_iff (by decide) hl).2 hlt
    unfold digits at hl this
    omega

end Decimal

namespace Number

theorem limit_le_pow_ten_mul {n : Nat} (h : 310 ≤ n) : limit ≤ Nat.pow 10 n * unit := by
  have hbase : ∀ m, m = 310 → limit ≤ Nat.pow 10 m * unit := by
    rintro m rfl
    decide +kernel
  obtain ⟨m, hm⟩ : ∃ m, m = 310 := ⟨310, rfl⟩
  exact Nat.le_trans (hbase m hm) (Nat.mul_le_mul_right _ (Decimal.pow_ten_le (by omega)))

theorem unit_le_pow_ten {n : Nat} (h : 324 ≤ n) : unit ≤ Nat.pow 10 n := by
  have hbase : ∀ m, m = 324 → unit ≤ Nat.pow 10 m := by
    rintro m rfl
    decide +kernel
  obtain ⟨m, hm⟩ : ∃ m, m = 324 := ⟨324, rfl⟩
  exact Nat.le_trans (hbase m hm) (Decimal.pow_ten_le (by omega))

theorem unit_pos : 0 < unit := by
  unfold unit
  exact pow_two_pos depth

theorem roundSteps_of_small {num den : Nat} (h : 2 * num < den) : roundSteps num den = 0 := by
  have hq : num / den = 0 := Nat.div_eq_of_lt (by omega)
  have hw : spacing 0 = 1 := by rfl
  unfold roundSteps
  dsimp only
  rw [hq, hw, Nat.mul_one, nearest_eq (by omega) (m := 0) (by omega) (by omega) (.inl rfl)]

theorem limit_le_roundSteps {num den : Nat} (h : limit ≤ num / den) : limit ≤ roundSteps num den := by
  unfold limit at *
  generalize width = n at *
  have hpos : 0 < Nat.pow 2 n := pow_two_pos n
  have h0 : num / den ≠ 0 := by omega
  have hlog : n ≤ (num / den).log2 := (Nat.le_log2 h0).2 h
  have hself : 2 ^ (num / den).log2 ≤ num / den := Nat.log2_self_le h0
  have hdvd : spacing (num / den) ∣ 2 ^ (num / den).log2 :=
    spacing_dvd_pow (by unfold excess; omega)
  obtain ⟨m, hm⟩ := hdvd
  have hq : num / den / spacing (num / den) ≤ nearest num (den * spacing (num / den)) := by
    rw [Nat.div_div_eq_div_mul]
    unfold nearest
    dsimp only
    split <;> omega
  have hmq : m ≤ num / den / spacing (num / den) :=
    (Nat.le_div_iff_mul_le (spacing_pos _)).2 (by rw [Nat.mul_comm, ← hm]; exact hself)
  calc 2 ^ n ≤ 2 ^ (num / den).log2 := Nat.pow_le_pow_right (by decide) hlog
    _ = m * spacing (num / den) := by rw [hm, Nat.mul_comm]
    _ ≤ roundSteps num den := Nat.mul_le_mul_right _ (Nat.le_trans hmq hq)

end Number

namespace Decimal

/-- The bounds beyond which nothing is computed do not show. -/
theorem toNumber_eq_ofRatio (negative : Bool) {d : Decimal} (h : d.coefficient ≠ 0) :
    d.toNumber negative = .ofRatio negative d.num d.den := by
  have hlow := le_coefficient h
  have hhigh := d.coefficient_lt
  have hlen : 0 < d.digits.length := Nat.length_toDigits_pos
  unfold toNumber
  dsimp only
  rw [if_neg h]
  split
  · have hk : limit ≤ roundSteps (d.num * unit) d.den := by
      obtain ⟨n, hn⟩ : ∃ n, d.digits.length - 1 + d.exponent.toNat = n + (-d.exponent).toNat :=
        ⟨d.digits.length - 1 + d.exponent.toNat - (-d.exponent).toNat, by omega⟩
      refine limit_le_roundSteps ((Nat.le_div_iff_mul_le d.den_pos).2 ?_)
      calc limit * d.den ≤ Nat.pow 10 n * unit * d.den :=
            Nat.mul_le_mul_right _ (limit_le_pow_ten_mul (by omega))
        _ = Nat.pow 10 n * d.den * unit := Nat.mul_right_comm ..
        _ = Nat.pow 10 (n + (-d.exponent).toNat) * unit := by rw [← pow_ten_mul]; rfl
        _ = Nat.pow 10 (d.digits.length - 1) * Nat.pow 10 d.exponent.toNat * unit := by
          rw [pow_ten_mul, hn]
        _ ≤ d.num * unit := Nat.mul_le_mul_right _ (Nat.mul_le_mul_right _ hlow)
    unfold ofRatio ofSteps
    dsimp only
    rw [dif_neg (by omega)]
  · split
    · have hk : roundSteps (d.num * unit) d.den = 0 := by
        obtain ⟨n, hn⟩ : ∃ n, (-d.exponent).toNat = n + 1 + (d.digits.length + d.exponent.toNat) :=
          ⟨(-d.exponent).toNat - (d.digits.length + d.exponent.toNat) - 1, by omega⟩
        have hunit : 2 * unit ≤ Nat.pow 10 (n + 1) := by
          have := unit_le_pow_ten (n := n) (by omega)
          rw [pow_ten_succ]
          omega
        refine roundSteps_of_small ?_
        calc 2 * (d.num * unit) = 2 * unit * d.num := by ring
          _ ≤ Nat.pow 10 (n + 1) * d.num := Nat.mul_le_mul_right _ hunit
          _ < Nat.pow 10 (n + 1) * (Nat.pow 10 d.digits.length * Nat.pow 10 d.exponent.toNat) :=
            Nat.mul_lt_mul_of_pos_left (Nat.mul_lt_mul_of_pos_right hhigh (pow_ten_pos _))
              (pow_ten_pos _)
          _ = d.den := by rw [pow_ten_mul, pow_ten_mul, ← hn]; rfl
      unfold ofRatio ofSteps
      simp only [hk]
      rw [dif_pos representable_zero.1]
      rfl
    · rfl

/-- Decimals of one value are one number. -/
theorem toNumber_eq_of_scaled (negative : Bool) {d e : Decimal} {m : Nat} (hd : d.coefficient ≠ 0)
    (he : e.coefficient ≠ 0) (hm : 0 < m) (hnum : e.num = d.num * m) (hden : e.den = d.den * m) :
    e.toNumber negative = d.toNumber negative := by
  rw [toNumber_eq_ofRatio negative hd, toNumber_eq_ofRatio negative he, hnum, hden]
  unfold ofRatio
  rw [Nat.mul_right_comm, ofSteps_mul_right _ _ _ hm]

theorem toNumber_zero (negative : Bool) (e : Int) :
    toNumber negative ⟨0, e⟩ = .signedZero negative := by
  unfold toNumber
  dsimp only
  rw [if_pos rfl]

end Decimal

namespace Number

theorem toNumber_carried (negative : Bool) (d : Decimal) :
    (carried d).toNumber negative = d.toNumber negative := by
  unfold carried
  split
  next h =>
    obtain ⟨c, hc⟩ : 10 ∣ d.coefficient := Nat.dvd_of_mod_eq_zero h
    obtain ⟨_, e⟩ := d
    dsimp only at hc h ⊢
    subst hc
    have hdiv : 10 * c / 10 = c := Nat.mul_div_cancel_left _ (by decide)
    rw [hdiv]
    rcases Nat.eq_zero_or_pos c with rfl | hpos
    · rw [Decimal.toNumber_zero, Nat.mul_zero, Decimal.toNumber_zero]
    · rcases Int.lt_or_le e 0 with hneg | hnonneg
      · refine (Decimal.toNumber_eq_of_scaled negative (m := 10) (d := ⟨c, e + 1⟩) (e := ⟨10 * c, e⟩)
          (Nat.pos_iff_ne_zero.1 hpos) (by show 10 * c ≠ 0; omega)
          (by decide) ?_ ?_).symm
        · show 10 * c * Nat.pow 10 e.toNat = c * Nat.pow 10 (e + 1).toNat * 10
          rw [show e.toNat = (e + 1).toNat by omega]
          ring
        · show Nat.pow 10 (-e).toNat = Nat.pow 10 (-(e + 1)).toNat * 10
          rw [show (-e).toNat = (-(e + 1)).toNat + 1 by omega, Decimal.pow_ten_succ]
      · refine Decimal.toNumber_eq_of_scaled negative (m := 1) (d := ⟨10 * c, e⟩) (e := ⟨c, e + 1⟩)
          (by show 10 * c ≠ 0; omega) (Nat.pos_iff_ne_zero.1 hpos)
          (by decide) ?_ ?_
        · show c * Nat.pow 10 (e + 1).toNat = 10 * c * Nat.pow 10 e.toNat * 1
          rw [show (e + 1).toNat = e.toNat + 1 by omega, Decimal.pow_ten_succ]
          ring
        · show Nat.pow 10 (-(e + 1)).toNat = Nat.pow 10 (-e).toNat * 1
          rw [show (-(e + 1)).toNat = (-e).toNat by omega, Nat.mul_one]
  next => rfl

/-! Seventeen digits are enough. -/

theorem countP_range_of_antitone {p : Nat → Bool} (hp : ∀ i, p (i + 1) = true → p i = true) (n : Nat) :
    (∀ i < (List.range n).countP p, p i = true) ∧
      ((List.range n).countP p < n → p ((List.range n).countP p) = false) := by
  have hdown : ∀ i j, p (i + j) = true → p i = true := by
    intro i j
    induction j with
    | zero => exact id
    | succ j ih => exact fun h => ih (hp _ h)
  induction n with
  | zero => simp
  | succ n ih =>
    obtain ⟨hlow, hhigh⟩ := ih
    have hle : (List.range n).countP p ≤ n := by
      simpa using List.countP_le_length (p := p) (l := List.range n)
    rw [List.range_succ, List.countP_append, List.countP_singleton]
    cases hn : p n with
    | true =>
      -- what holds of the last one holds of all before it
      have hfull : (List.range n).countP p = n := by
        refine Nat.le_antisymm hle (Nat.le_of_not_lt fun hlt => ?_)
        have hd := hdown ((List.range n).countP p) (n - (List.range n).countP p)
          (by rw [show _ + (n - _) = n by omega]; exact hn)
        rw [hhigh hlt] at hd
        exact Bool.noConfusion hd
      rw [hfull]
      refine ⟨fun i hi => hdown i (n - i) ?_, fun h => absurd h (by simp)⟩
      rw [show i + (n - i) = n by simp at hi; omega]
      exact hn
    | false =>
      simp only [Bool.false_eq_true, if_false, Nat.add_zero]
      refine ⟨hlow, fun _ => ?_⟩
      rcases Nat.lt_or_ge ((List.range n).countP p) n with hlt | hge
      · exact hhigh hlt
      · rw [show (List.range n).countP p = n by omega]
        exact hn

theorem unit_mul_le {k : Nat} (h0 : 0 < k) :
    unit * Nat.pow 10 (leadingExponent k).toNat ≤ k * Nat.pow 10 (-leadingExponent k).toNat := by
  unfold leadingExponent
  split
  next h =>
    have hpos : 0 < k / unit := Nat.div_pos h unit_pos
    have hlen : 0 < (Nat.toDigits 10 (k / unit)).length := Nat.length_toDigits_pos
    rw [show (((Nat.toDigits 10 (k / unit)).length : Int) - 1).toNat =
        (Nat.toDigits 10 (k / unit)).length - 1 by omega,
      show (-(((Nat.toDigits 10 (k / unit)).length : Int) - 1)).toNat = 0 by omega]
    have hle := Decimal.le_coefficient (d := ⟨k / unit, 0⟩) (Nat.pos_iff_ne_zero.1 hpos)
    calc unit * Nat.pow 10 ((Nat.toDigits 10 (k / unit)).length - 1) ≤ unit * (k / unit) :=
          Nat.mul_le_mul_left _ hle
      _ ≤ k := Nat.mul_div_le k unit
      _ = k * Nat.pow 10 0 := (Nat.mul_one k).symm
  next h =>
    let p : Nat → Bool := fun j => k * Nat.pow 10 j < unit
    have hp : ∀ i, p (i + 1) = true → p i = true := by
      intro i hi
      have hi : k * Nat.pow 10 (i + 1) < unit := of_decide_eq_true hi
      have hmono := Nat.mul_le_mul_left k (Decimal.pow_ten_le (Nat.le_succ i))
      exact decide_eq_true (Nat.lt_of_le_of_lt hmono hi)
    obtain ⟨-, hhigh⟩ := countP_range_of_antitone hp 324
    show unit * Nat.pow 10 (-(((List.range 324).countP p : Nat) : Int)).toNat ≤
      k * Nat.pow 10 (- -(((List.range 324).countP p : Nat) : Int)).toNat
    generalize hc : (List.range 324).countP p = c at *
    rw [show (-(c : Int)).toNat = 0 by omega, show (- -(c : Int)).toNat = c by omega]
    rw [show Nat.pow 10 0 = 1 from rfl, Nat.mul_one]
    rcases Nat.lt_or_ge c 324 with hlt | hge
    · exact Nat.le_of_not_lt (of_decide_eq_false (hhigh hlt))
    · exact Nat.le_trans (unit_le_pow_ten hge) (Nat.le_mul_of_pos_left _ h0)

/-- On a grid of seventeen digits the cells are narrower than the steps around a number. -/
theorem cell_mul_le {k : Nat} {e : Int} (h0 : 0 < k) (he : e = leadingExponent k - 16) :
    unit * Nat.pow 10 e.toNat * Nat.pow 10 16 ≤ k * Nat.pow 10 (-e).toNat := by
  have h := unit_mul_le h0
  have hle : unit * (Nat.pow 10 (leadingExponent k).toNat * Nat.pow 10 (-e).toNat) ≤
      k * (Nat.pow 10 (-leadingExponent k).toNat * Nat.pow 10 (-e).toNat) := by
    rw [← Nat.mul_assoc, ← Nat.mul_assoc]
    exact Nat.mul_le_mul_right _ h
  have hexp : (leadingExponent k).toNat + (-e).toNat =
      e.toNat + 16 + (-leadingExponent k).toNat := by omega
  rw [Decimal.pow_ten_mul, Nat.mul_comm (Nat.pow 10 (-leadingExponent k).toNat), hexp,
    ← Decimal.pow_ten_mul, ← Decimal.pow_ten_mul, ← Nat.mul_assoc, ← Nat.mul_assoc,
    ← Nat.mul_assoc] at hle
  exact Nat.le_of_mul_le_mul_right hle (Decimal.pow_ten_pos _)

theorem roundsTo_of_lt {k num den : Nat} (low : (4 * k - quarterStepsBelow k) * den < 4 * num)
    (high : 4 * num < (4 * k + quarterStepsAbove k) * den) : roundsTo k num den = true := by
  unfold roundsTo
  dsimp only
  split <;> simp only [Bool.and_eq_true, decide_eq_true_eq] <;> omega

theorem roundsTo_neighbour {k cell up : Nat} (hk : Representable k) (h0 : 0 < k) (hup : 0 < up)
    (hcell : 0 < cell) (h : cell * Nat.pow 10 16 ≤ k * up) :
    roundsTo k (k * up / cell * cell) up = true ∨
      roundsTo k ((k * up / cell + 1) * cell) up = true := by
  have hw := Nat.mul_pos (spacing_pos k) hup
  have hbelow : k * up / cell * cell ≤ k * up := Nat.div_mul_le_self _ _
  have habove : k * up < (k * up / cell + 1) * cell := by
    rw [Nat.mul_comm (_ + 1)]
    exact Nat.lt_mul_div_succ _ hcell
  rw [Nat.succ_mul] at *
  generalize k * up / cell * cell = a at *
  have hhigh : (4 * k + quarterStepsAbove k) * up = 4 * (k * up) + 2 * (spacing k * up) := by
    unfold quarterStepsAbove
    ring
  have hpow : Nat.pow 10 16 = 10000000000000000 := by decide
  rw [hpow] at h
  by_cases hp : excess k ≠ 0 ∧ k = 2 ^ k.log2
  · right
    have hb : quarterStepsBelow k = spacing k := if_pos hp
    have hk52 : k * up = 4503599627370496 * (spacing k * up) := by
      rw [← Nat.mul_assoc]
      congr 1
      have hl := log2_of_excess hp.1
      calc k = 2 ^ (52 + excess k) := by rw [Nat.add_comm, ← hl]; exact hp.2
        _ = 2 ^ 52 * 2 ^ excess k := Nat.pow_add ..
        _ = 4503599627370496 * spacing k := rfl
    refine roundsTo_of_lt ?_ ?_
    · rw [hb, Nat.sub_mul, Nat.mul_assoc]
      omega
    · rw [hhigh]
      omega
  · have hb : quarterStepsBelow k = 2 * spacing k := if_neg hp
    have hlow : (4 * k - quarterStepsBelow k) * up = 4 * (k * up) - 2 * (spacing k * up) := by
      rw [hb, Nat.sub_mul, Nat.mul_assoc, Nat.mul_assoc]
    have hsp : spacing k * up ≤ k * up := Nat.mul_le_mul_right _ (spacing_le hk h0)
    have hmant : k * up < 9007199254740992 * (spacing k * up) := by
      rw [← Nat.mul_assoc]
      exact Nat.mul_lt_mul_of_pos_right (lt_mantissaLimit_mul_spacing k) hup
    rcases Nat.lt_or_ge (2 * (k * up - a)) (spacing k * up) with hnear | hfar
    · exact .inl (roundsTo_of_lt (by rw [hlow]; omega) (by rw [hhigh]; omega))
    · exact .inr (roundsTo_of_lt (by rw [hlow]; omega) (by rw [hhigh]; omega))

theorem onGrid?_seventeen (tie : Tie) {k : Nat} (hk : Representable k) (h0 : 0 < k) :
    (onGrid? tie k (leadingExponent k - 16)).isSome = true := by
  have h := roundsTo_neighbour hk h0 (Decimal.pow_ten_pos (-(leadingExponent k - 16)).toNat)
    (Nat.mul_pos unit_pos (Decimal.pow_ten_pos (leadingExponent k - 16).toNat))
    (cell_mul_le h0 rfl)
  unfold onGrid?
  dsimp only
  split <;> simp_all

/-- Whatever is taken from a grid rounds to the number. -/
theorem roundsTo_of_onGrid? {tie : Tie} {k : Nat} {e : Int} {d : Decimal}
    (h : onGrid? tie k e = some d) : roundsTo k (d.num * unit) d.den = true := by
  have hnum : ∀ c : Nat, (⟨c, e⟩ : Decimal).num * unit = c * (unit * Nat.pow 10 e.toNat) := by
    intro c
    show c * Nat.pow 10 e.toNat * unit = _
    rw [Nat.mul_assoc, Nat.mul_comm unit]
  have hden : ∀ c : Nat, (⟨c, e⟩ : Decimal).den = Nat.pow 10 (-e).toNat := fun _ => rfl
  unfold onGrid? at h
  dsimp only at h
  generalize unit * Nat.pow 10 e.toNat = cell at h hnum
  generalize Nat.pow 10 (-e).toNat = up at h hden
  split at h <;> cases h <;> rw [hnum, hden]
  · split <;> assumption
  · assumption
  · assumption

/-- The shortest digits of a number read back as it. -/
theorem toNumber_shortest (tie : Tie) {k : Nat} (hk : Representable k) :
    (shortest tie k).toNumber false = .finite false k hk := by
  unfold shortest
  split
  next h =>
    subst h
    rfl
  next h =>
    have h0 : 0 < k := Nat.pos_of_ne_zero h
    dsimp only
    split
    next d hd =>
      obtain ⟨n, -, hn⟩ := List.exists_of_findSome?_eq_some hd
      have hr := roundsTo_of_onGrid? hn
      have hround := roundSteps_of_roundsTo hk h0 d.den_pos hr
      have hc : d.coefficient ≠ 0 := by
        intro hc
        rw [show d.num = 0 by unfold Decimal.num; rw [hc, Nat.zero_mul], Nat.zero_mul,
          roundSteps_of_small (by have := d.den_pos; omega)] at hround
        exact h hround.symm
      rw [toNumber_carried, Decimal.toNumber_eq_ofRatio false hc]
      unfold ofRatio ofSteps
      simp only [hround]
      rw [dif_pos hk.1]
    next hnone =>
      have hsome := onGrid?_seventeen tie hk h0
      rw [List.findSome?_eq_none_iff] at hnone
      rw [show leadingExponent k - 16 = leadingExponent k - ((16 : Nat) : Int) by rfl,
        hnone 16 (by decide)] at hsome
      exact Bool.noConfusion hsome

theorem roundSteps_one {k : Nat} (hk : Representable k) : roundSteps k 1 = k := by
  have := spacing_pos k
  exact roundSteps_of_above hk (by decide) (by omega) (by omega) (.inr (by omega))

theorem toNumber_whole {negative : Bool} {k n : Nat} (hn : n * unit = k) (hk : Representable k) :
    Decimal.toNumber negative ⟨n, 0⟩ = .finite negative k hk := by
  by_cases h0 : n = 0
  · have hk0 : k = 0 := by rw [← hn, h0, Nat.zero_mul]
    subst hk0
    rw [h0, Decimal.toNumber_zero]
    rfl
  · have hround : roundSteps (n * Nat.pow 10 (0 : Int).toNat * unit) (Nat.pow 10 (-0 : Int).toNat) =
        k := by
      show roundSteps (n * 1 * unit) 1 = k
      rw [Nat.mul_one, hn, roundSteps_one hk]
    rw [Decimal.toNumber_eq_ofRatio negative h0]
    unfold ofRatio ofSteps Decimal.num Decimal.den
    simp only [hround]
    rw [dif_pos hk.1]

/-- A number is printed as a decimal that reads back as it. -/
theorem textChars_finite {k : Nat} (hk : Representable k) : ∃ d : Decimal,
    textChars (.finite false k hk) = positional d ∧ d.toNumber false = .finite false k hk := by
  have hsign : ∀ cs, sign false ++ cs = cs := fun _ => rfl
  unfold textChars
  dsimp only
  split
  next h =>
    subst h
    exact ⟨⟨0, 0⟩, by rfl, by rfl⟩
  next h =>
    rw [hsign, hsign]
    split
    next hw =>
      have hn : k / unit * unit = k := Nat.div_mul_cancel (Nat.dvd_of_mod_eq_zero hw.1)
      refine ⟨⟨k / unit, 0⟩, ?_, toNumber_whole hn hk⟩
      unfold positional Decimal.digits
      rw [if_pos (Int.le_refl 0)]
      exact (List.append_nil _).symm
    next => exact ⟨shortest .up k, rfl, toNumber_shortest .up hk⟩

theorem positional_head (d : Decimal) : ∃ c r, positional d = c :: r ∧ c.isDigit = true := by
  obtain ⟨c, r, hd⟩ := List.exists_cons_of_ne_nil (Nat.toDigits_ne_nil (n := d.coefficient) (b := 10))
  have hc : c.isDigit = true :=
    Nat.isDigit_of_mem_toDigits (b := 10) (n := d.coefficient) (by decide) (by decide)
      (by rw [hd]; exact List.mem_cons_self)
  unfold positional Decimal.digits
  dsimp only
  rw [hd]
  split
  next => exact ⟨c, _, rfl, hc⟩
  next =>
    split
    next hlt =>
      obtain ⟨m, hm⟩ : ∃ m, (c :: r).length - (-d.exponent).toNat = m + 1 :=
        ⟨(c :: r).length - (-d.exponent).toNat - 1, by omega⟩
      rw [hm]
      exact ⟨c, _, rfl, hc⟩
    next => exact ⟨'0', _, rfl, by decide⟩

/-! Small whole numbers. -/

theorem ofNat_eq_finite {k n : Nat} (hn : n * unit = k) (hk : Representable k) :
    ofNat n = .finite false k hk := by
  unfold ofNat ofRatio ofSteps
  simp only [hn, roundSteps_one hk]
  rw [dif_pos hk.1]

theorem text_whole {k n : Nat} (hn : n * unit = k) (hk : Representable k)
    (hlt : n < 1000000000000000) : (Number.finite false k hk).text = toString n := by
  have hq : k / unit = n := by rw [← hn, Nat.mul_div_cancel _ unit_pos]
  have hr : k % unit = 0 := by rw [← hn, Nat.mul_mod_left]
  have hsmall : k < 1000000000000000 * unit := by
    rw [← hn]
    exact Nat.mul_lt_mul_of_pos_right hlt unit_pos
  have hdigits : (toString n).toList = Nat.toDigits 10 n := Nat.toList_repr
  rw [← String.toList_inj, hdigits]
  unfold text textChars
  rw [String.toList_ofList]
  dsimp only
  split
  next h0 =>
    have hn0 : n = 0 := by rw [← hq, h0, Nat.zero_div]
    rw [hn0, Nat.toDigits_zero]
  next => rw [if_pos ⟨hr, hsmall⟩, hq]; rfl

theorem representable_unit : Representable unit := by decide +kernel

end Number

end ScopeBlocks
