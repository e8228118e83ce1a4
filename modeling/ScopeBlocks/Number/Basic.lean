/-! Binary64 numbers held exactly. A finite number is a sign and a whole count of the smallest
positive step, 2^-1074, so that sums, remainders and comparisons are those of whole numbers and every
operation is an exact quotient followed by one rounding to 53 significant bits, ties to even. -/
namespace ScopeBlocks

namespace Number

/-- The depth of the smallest positive step below one. -/
def depth : Nat := 1074

/-- The width of the counts of steps that finite numbers have. -/
def width : Nat := 2098

def unit : Nat := Nat.pow 2 depth

/-- The count of steps at which the infinities begin. -/
def limit : Nat := Nat.pow 2 width

/-- Where the counts of at most 53 bits end. -/
def mantissaLimit : Nat := 0x20000000000000

/-- The bits by which a count of steps is longer than the 53 that a number keeps. -/
def excess (steps : Nat) : Nat := steps.log2 + 1 - 53

/-- How far the counts around a given one lie apart that some number has. -/
def spacing (steps : Nat) : Nat := Nat.pow 2 (excess steps)

/-- The counts of steps that some number has. -/
def Representable (steps : Nat) : Prop := steps < limit ∧ spacing steps ∣ steps

instance (steps : Nat) : Decidable (Representable steps) := by unfold Representable; infer_instance

/-- The whole number nearest to `num / den`, a half going to the even one. -/
def nearest (num den : Nat) : Nat :=
  let q := num / den
  let r := num % den
  if den < 2 * r ∨ (2 * r = den ∧ q % 2 = 1) then q + 1 else q

/-- The count of steps nearest to `num / den` among those of at most 53 significant bits. -/
def roundSteps (num den : Nat) : Nat :=
  let w := spacing (num / den)
  nearest num (den * w) * w

theorem nearest_le (num den : Nat) : nearest num den ≤ num / den + 1 := by
  unfold nearest
  dsimp only
  split <;> omega

theorem nearest_one (n : Nat) : nearest n 1 = n := by
  simp [nearest, Nat.mod_one]

theorem pow_two_pos (e : Nat) : 0 < Nat.pow 2 e := Nat.two_pow_pos e

theorem spacing_pos (steps : Nat) : 0 < spacing steps := pow_two_pos _

theorem lt_mantissaLimit_mul_spacing (steps : Nat) : steps < mantissaLimit * spacing steps := by
  have h := Nat.lt_log2_self (n := steps)
  show steps < 2 ^ 53 * 2 ^ excess steps
  rw [← Nat.pow_add]
  apply Nat.lt_of_lt_of_le h
  apply Nat.pow_le_pow_right (by decide)
  unfold excess
  omega

theorem nearest_mantissa_le (num den : Nat) :
    nearest num (den * spacing (num / den)) ≤ mantissaLimit := by
  have h := nearest_le num (den * spacing (num / den))
  rw [← Nat.div_div_eq_div_mul] at h
  have hd : num / den / spacing (num / den) < mantissaLimit := by
    apply Nat.div_lt_of_lt_mul
    rw [Nat.mul_comm]
    exact lt_mantissaLimit_mul_spacing (num / den)
  omega

/-- Spacing grows with the bits beyond the 53 that a number keeps. -/
theorem spacing_dvd_of_lt {steps e : Nat} (h : steps < mantissaLimit * Nat.pow 2 e) :
    spacing steps ∣ Nat.pow 2 e := by
  have hlt : steps < 2 ^ (53 + e) := by rw [Nat.pow_add]; exact h
  apply Nat.pow_dvd_pow 2
  unfold excess
  by_cases hz : steps = 0
  · subst hz; simp [Nat.log2_zero]
  · have := (Nat.log2_lt hz).2 hlt
    omega

theorem spacing_mantissaLimit_mul (e : Nat) :
    spacing (mantissaLimit * Nat.pow 2 e) = Nat.pow 2 (e + 1) := by
  show 2 ^ excess (2 ^ 53 * 2 ^ e) = 2 ^ (e + 1)
  rw [← Nat.pow_add]
  unfold excess
  rw [Nat.log2_two_pow]
  congr 1
  omega

theorem spacing_dvd_roundSteps (num den : Nat) :
    spacing (roundSteps num den) ∣ roundSteps num den := by
  have hm := nearest_mantissa_le num den
  unfold roundSteps
  dsimp only
  generalize nearest num (den * spacing (num / den)) = m at *
  unfold spacing
  generalize excess (num / den) = e at *
  rcases Nat.lt_or_eq_of_le hm with h | h
  · have hlt : m * Nat.pow 2 e < mantissaLimit * Nat.pow 2 e :=
      Nat.mul_lt_mul_of_pos_right h (Nat.two_pow_pos e)
    exact Nat.dvd_trans (spacing_dvd_of_lt hlt) (Nat.dvd_mul_left _ _)
  · subst h
    have hs : Nat.pow 2 (excess (mantissaLimit * Nat.pow 2 e)) = Nat.pow 2 (e + 1) :=
      spacing_mantissaLimit_mul e
    rw [hs]
    show 2 ^ (e + 1) ∣ 2 ^ 53 * 2 ^ e
    rw [← Nat.pow_add]
    exact Nat.pow_dvd_pow 2 (by omega)

theorem representable_zero : Representable 0 := by
  refine ⟨?_, Nat.dvd_zero _⟩
  unfold limit
  exact pow_two_pos width

end Number

/-- A binary64 number; a finite one is `steps` times 2^-1074, with its sign kept even at zero. -/
inductive Number where
  | nan
  | infinite (negative : Bool)
  | finite (negative : Bool) (steps : Nat) (exact : Number.Representable steps)
  deriving DecidableEq, Repr

namespace Number

/-- The number nearest to `num / den` steps, beyond the largest finite one an infinity. -/
def ofSteps (negative : Bool) (num den : Nat) : Number :=
  let k := roundSteps num den
  if h : k < limit then .finite negative k ⟨h, spacing_dvd_roundSteps num den⟩
  else .infinite negative

def zero : Number := .finite false 0 representable_zero

def signedZero (negative : Bool) : Number := .finite negative 0 representable_zero

instance : Inhabited Number := ⟨zero⟩

/-- The number nearest to `num / den`. -/
def ofRatio (negative : Bool) (num den : Nat) : Number := ofSteps negative (num * unit) den

def ofNat (n : Nat) : Number := ofRatio false n 1

def ofInt (n : Int) : Number := ofRatio (n < 0) n.natAbs 1

instance (n : Nat) : OfNat Number n := ⟨ofNat n⟩

def isNaN : Number → Bool
  | .nan => true
  | _ => false

def isFinite : Number → Bool
  | .finite .. => true
  | _ => false

/-- Whether a number counts as true: neither a zero nor not-a-number. -/
def truthy : Number → Bool
  | .nan => false
  | .infinite _ => true
  | .finite _ k _ => k != 0

def neg : Number → Number
  | .nan => .nan
  | .infinite s => .infinite (!s)
  | .finite s k h => .finite (!s) k h

def abs : Number → Number
  | .nan => .nan
  | .infinite _ => .infinite false
  | .finite _ k h => .finite false k h

def signed (negative : Bool) (steps : Nat) : Int := if negative then -(steps : Int) else steps

/-- The sum of two opposite numbers is the positive zero; two negative zeros keep their sign. -/
def add : Number → Number → Number
  | .nan, _ => .nan
  | _, .nan => .nan
  | .infinite s, .infinite t => if s = t then .infinite s else .nan
  | .infinite s, .finite .. => .infinite s
  | .finite .., .infinite t => .infinite t
  | .finite s a _, .finite t b _ =>
    if s = t then ofSteps s (a + b) 1
    else if a = b then zero
    else if b < a then ofSteps s (a - b) 1
    else ofSteps t (b - a) 1

def sub (x y : Number) : Number := x.add y.neg

def mul : Number → Number → Number
  | .nan, _ => .nan
  | _, .nan => .nan
  | .infinite s, .infinite t => .infinite (s != t)
  | .infinite s, .finite t b _ => if b = 0 then .nan else .infinite (s != t)
  | .finite s a _, .infinite t => if a = 0 then .nan else .infinite (s != t)
  | .finite s a _, .finite t b _ => ofSteps (s != t) (a * b) unit

def div : Number → Number → Number
  | .nan, _ => .nan
  | _, .nan => .nan
  | .infinite _, .infinite _ => .nan
  | .infinite s, .finite t _ _ => .infinite (s != t)
  | .finite s _ _, .infinite t => signedZero (s != t)
  | .finite s a _, .finite t b _ =>
    if b = 0 then (if a = 0 then .nan else .infinite (s != t))
    else ofSteps (s != t) (a * unit) b

/-- The remainder of the division toward zero; it has the sign of the dividend and is exact. -/
def rem : Number → Number → Number
  | .nan, _ => .nan
  | _, .nan => .nan
  | .infinite _, _ => .nan
  | x, .infinite _ => x
  | .finite s a _, .finite _ b _ => if b = 0 then .nan else ofSteps s (a % b) 1

/-- The order of two numbers; none where one is not-a-number. The two zeros are equal. -/
def compare? : Number → Number → Option Ordering
  | .nan, _ => none
  | _, .nan => none
  | .infinite s, .infinite t => some (compare t.toNat s.toNat)
  | .infinite s, .finite .. => some (if s then .lt else .gt)
  | .finite .., .infinite t => some (if t then .gt else .lt)
  | .finite s a _, .finite t b _ => some (compare (signed s a) (signed t b))

def equals (x y : Number) : Bool := x.compare? y == some .eq

def lt (x y : Number) : Bool := x.compare? y == some .lt

def le (x y : Number) : Bool :=
  match x.compare? y with
  | some o => o.isLE
  | none => false

/-- Whether a number is below zero; the negative zero is not. -/
def isNegative (x : Number) : Bool := x.lt zero

/-- The nearest whole number, a half going away from zero, held between `low` and `high`; not-a-number
gives zero. -/
def roundBetween (low high : Int) : Number → Int
  | .nan => 0
  | .infinite s => if s then low else high
  | .finite s k _ => max low (min high (signed s ((2 * k + unit) / (2 * unit))))

/-- The whole number that a number is, with its sign, if it is one. -/
def toInt? : Number → Option Int
  | .finite s k _ => if k % unit = 0 then some (signed s (k / unit)) else none
  | _ => none

@[simp] theorem neg_neg (x : Number) : x.neg.neg = x := by
  cases x <;> simp [neg]

@[simp] theorem compare?_nan_left (x : Number) : compare? .nan x = none := by
  cases x <;> rfl

@[simp] theorem compare?_nan_right (x : Number) : compare? x .nan = none := by
  cases x <;> rfl

end Number

end ScopeBlocks
