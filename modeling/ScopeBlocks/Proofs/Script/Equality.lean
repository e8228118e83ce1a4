import Mathlib.Order.Compare
import ScopeBlocks.Script.Operator

/-! The equality that scripts test. Two values are equal where they are built alike, the two zeros taken for
one, and nothing in them is unequal to itself. Among the values that this leaves it is an equivalence. -/
namespace ScopeBlocks

namespace Number

/-- A number with the positive zero in place of the negative one. -/
def mergeZeros : Number → Number
  | .finite negative steps exact => .finite (negative && steps != 0) steps exact
  | x => x

theorem signed_eq_iff {s t : Bool} {a b : Nat} :
    signed s a = signed t b ↔ (s && a != 0) = (t && b != 0) ∧ a = b := by
  cases s <;> cases t <;> simp [signed] <;> grind

theorem equals_iff {x y : Number} :
    x.equals y = true ↔ x ≠ .nan ∧ x.mergeZeros = y.mergeZeros := by
  unfold equals
  rw [beq_iff_eq]
  cases x with
  | nan => simp
  | infinite s =>
    cases y with
    | nan | finite => cases s <;> simp [compare?, mergeZeros]
    | infinite t => cases s <;> cases t <;> simp [compare?, mergeZeros]
  | finite s a =>
    cases y with
    | nan => simp [mergeZeros]
    | infinite t => cases t <;> simp [compare?, mergeZeros]
    | finite t b => simp [compare?, mergeZeros, signed_eq_iff]

theorem ne_nan_of_mergeZeros {x y : Number} (h : x.mergeZeros = y.mergeZeros) (hx : x ≠ .nan) :
    y ≠ .nan := by
  rintro rfl
  cases x <;> simp_all [mergeZeros]

end Number

namespace Script.Value

mutual

def mergeZeros : Value → Value
  | .number x => .number x.mergeZeros
  | .array items => .array (mergeZerosItems items)
  | .object ⟨entries⟩ => .object ⟨mergeZerosEntries entries⟩
  | v => v

def mergeZerosItems : List Value → List Value
  | [] => []
  | v :: rest => mergeZeros v :: mergeZerosItems rest

def mergeZerosEntries : List (String × Value) → List (String × Value)
  | [] => []
  | (k, v) :: rest => (k, mergeZeros v) :: mergeZerosEntries rest

end

/-- The values that stand in a value at some depth, the value itself among them. -/
inductive Occurs (u : Value) : Value → Prop
  | here : Occurs u u
  | item {items : List Value} {v : Value} (hv : v ∈ items) (h : Occurs u v) : Occurs u (.array items)
  | field {fields : Dict Value} {v : Value} (hv : v ∈ fields.values) (h : Occurs u v) :
      Occurs u (.object fields)

/-- No number that is none and no failure stands in the value. -/
def Definite (v : Value) : Prop := ∀ u, Occurs u v → u ≠ .number .nan ∧ u.kind ≠ .error

def Objectless (v : Value) : Prop := ∀ u, Occurs u v → u.kind ≠ .object

/-- A value in which nothing is unequal to itself. -/
structure Comparable (v : Value) : Prop where
  definite : v.Definite
  objectless : v.Objectless

theorem occurs_array {u : Value} {items : List Value} :
    Occurs u (.array items) ↔ u = .array items ∨ ∃ v ∈ items, Occurs u v := by
  constructor
  · rintro (_ | ⟨hv, h⟩)
    · exact .inl rfl
    · exact .inr ⟨_, hv, h⟩
  · rintro (rfl | ⟨v, hv, h⟩)
    · exact .here
    · exact .item hv h

theorem occurs_number {u : Value} {x : Number} : Occurs u (.number x) ↔ u = .number x := by
  constructor
  · rintro ⟨⟩
    rfl
  · rintro rfl
    exact .here

theorem comparable_null : Comparable .null :=
  ⟨by rintro _ ⟨⟩; exact ⟨by rintro ⟨⟩, by rintro ⟨⟩⟩, by rintro _ ⟨⟩ ⟨⟩⟩

theorem comparable_bool (b : Bool) : Comparable (.bool b) :=
  ⟨by rintro _ ⟨⟩; exact ⟨by rintro ⟨⟩, by rintro ⟨⟩⟩, by rintro _ ⟨⟩ ⟨⟩⟩

theorem comparable_string (s : String) : Comparable (.string s) :=
  ⟨by rintro _ ⟨⟩; exact ⟨by rintro ⟨⟩, by rintro ⟨⟩⟩, by rintro _ ⟨⟩ ⟨⟩⟩

theorem comparable_number {x : Number} : Comparable (.number x) ↔ x ≠ .nan := by
  constructor
  · rintro h rfl
    exact (h.definite _ .here).1 rfl
  · intro hx
    refine ⟨fun u hu => ?_, fun u hu => ?_⟩
    all_goals obtain rfl := occurs_number.1 hu
    · exact ⟨by simpa using hx, by rintro ⟨⟩⟩
    · rintro ⟨⟩

theorem comparable_array {items : List Value} :
    Comparable (.array items) ↔ ∀ v ∈ items, v.Comparable := by
  constructor
  · intro h v hv
    exact ⟨fun u hu => h.definite u (.item hv hu), fun u hu => h.objectless u (.item hv hu)⟩
  · intro h
    refine ⟨fun u hu => ?_, fun u hu => ?_⟩
    all_goals rcases occurs_array.1 hu with rfl | ⟨v, hv, hu⟩
    · exact ⟨by rintro ⟨⟩, by rintro ⟨⟩⟩
    · exact (h v hv).definite u hu
    · rintro ⟨⟩
    · exact (h v hv).objectless u hu

theorem not_comparable_object (fields : Dict Value) : ¬Comparable (.object fields) :=
  fun h => h.objectless _ .here rfl

theorem not_comparable_error (message : String) : ¬Comparable (.error message) :=
  fun h => (h.definite _ .here).2 rfl

mutual

/-- Values are equal where both are comparable and they are built alike. -/
theorem equals_iff : (v w : Value) →
    (v.equals w = true ↔ v.Comparable ∧ w.Comparable ∧ v.mergeZeros = w.mergeZeros)
  | .null, w => by
    cases w <;> simp [equals, mergeZeros, comparable_null]
  | .bool b, w => by
    cases w <;> simp [equals, mergeZeros, comparable_bool]
  | .string s, w => by
    cases w <;> simp [equals, mergeZeros, comparable_string]
  | .number x, w => by
    cases w with
    | number y =>
      simp only [equals, mergeZeros, comparable_number, Number.equals_iff, number.injEq]
      exact ⟨fun ⟨hx, h⟩ => ⟨hx, Number.ne_nan_of_mergeZeros h hx, h⟩, fun ⟨hx, _, h⟩ => ⟨hx, h⟩⟩
    | _ => simp [equals, mergeZeros]
  | .array items, w => by
    cases w with
    | array items' =>
      simp only [equals, mergeZeros, comparable_array, equalsItems_iff items items', array.injEq]
    | _ => simp [equals, mergeZeros]
  | .object fields, w => by
    simp [equals, not_comparable_object]
  | .error message, w => by
    simp [equals, not_comparable_error]

theorem equalsItems_iff : (vs ws : List Value) → (equalsItems vs ws = true ↔
    (∀ v ∈ vs, v.Comparable) ∧ (∀ w ∈ ws, w.Comparable) ∧ mergeZerosItems vs = mergeZerosItems ws)
  | [], ws => by
    cases ws <;> simp [equalsItems, mergeZerosItems]
  | v :: vs, ws => by
    cases ws with
    | nil => simp [equalsItems, mergeZerosItems]
    | cons w ws =>
      simp only [equalsItems, mergeZerosItems, Bool.and_eq_true, equals_iff v w, equalsItems_iff vs ws,
        List.forall_mem_cons, List.cons.injEq]
      grind

end

theorem equals_self_iff {v : Value} : v.equals v = true ↔ v.Comparable :=
  (equals_iff v v).trans ⟨And.left, fun h => ⟨h, h, rfl⟩⟩

theorem equals_comm (v w : Value) : v.equals w = w.equals v := by
  rw [Bool.eq_iff_iff, equals_iff, equals_iff]
  exact ⟨fun ⟨hv, hw, h⟩ => ⟨hw, hv, h.symm⟩, fun ⟨hw, hv, h⟩ => ⟨hv, hw, h.symm⟩⟩

theorem equals_trans {u v w : Value} (huv : u.equals v = true) (hvw : v.equals w = true) :
    u.equals w = true := by
  obtain ⟨hu, -, huv⟩ := (equals_iff u v).1 huv
  obtain ⟨-, hw, hvw⟩ := (equals_iff v w).1 hvw
  exact (equals_iff u w).2 ⟨hu, hw, huv.trans hvw⟩

/-- The test for equality is symmetric and transitive on all values, and it is reflexive just on those in
which no object stands, no number that is none and no failure. It holds of two of these where they are built
alike, and of no other values. The test for difference is its negation on all values. -/
theorem equality_equivalence (u v w : Value) :
    (BinaryOp.eq.apply u u = .ok (.bool true) ↔ u.Comparable) ∧
    BinaryOp.eq.apply u v = BinaryOp.eq.apply v u ∧
    (BinaryOp.eq.apply u v = .ok (.bool true) → BinaryOp.eq.apply v w = .ok (.bool true) →
      BinaryOp.eq.apply u w = .ok (.bool true)) ∧
    ∃ same : Bool,
      BinaryOp.eq.apply u v = .ok (.bool same) ∧ BinaryOp.ne.apply u v = .ok (.bool (!same)) ∧
      (same = true ↔ u.Comparable ∧ v.Comparable ∧ u.mergeZeros = v.mergeZeros) := by
  simp only [BinaryOp.apply, Except.ok.injEq, bool.injEq]
  exact ⟨equals_self_iff, equals_comm u v, equals_trans, u.equals v, rfl, rfl, equals_iff u v⟩

/-- The empty object is definite and still unequal to itself: objects are not looked into. -/
theorem emptyObject_unequal :
    Value.Definite (.object .empty) ∧
      BinaryOp.eq.apply (.object .empty) (.object .empty) = .ok (.bool false) ∧
      BinaryOp.ne.apply (.object .empty) (.object .empty) = .ok (.bool true) := by
  refine ⟨fun u hu => ?_, rfl, rfl⟩
  cases hu with
  | here => exact ⟨by rintro ⟨⟩, by rintro ⟨⟩⟩
  | field hv h => cases hv

end Script.Value

end ScopeBlocks
