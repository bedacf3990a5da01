import Mathlib
import SemiringParsing.Proofs.Algebra.Guarded
import SemiringParsing.Proofs.Number.Nonneg

/-!
# Extended real numbers

The real numbers with two infinities and a value that is no number. Arithmetic follows the rules
that floating-point numbers have for these values, nothing is rounded, and the exponential and the
logarithm are the exact functions with their limits at the infinities.

Nothing here can be evaluated. What is gained over rational numbers is that costs, which are
logarithms, have exact values. The values of `ℝ≥0∞` are the numbers that are zero or more, and the
algebra of probabilities computes in them (`represents_probability`).
-/

namespace SemiringParsing

open ENNReal

/-- A real number, an infinity, or no number. -/
inductive ExtendedReal
  | number (x : EReal)
  | nan

namespace ExtendedReal

noncomputable section

/-- Sums. Infinities of different signs have none. -/
def add : ExtendedReal → ExtendedReal → ExtendedReal
  | number x, number y =>
    if x = ⊤ ∧ y = ⊥ ∨ x = ⊥ ∧ y = ⊤ then nan else number (x + y)
  | _, _ => nan

/-- Products. Zero and an infinity have none. -/
def mul : ExtendedReal → ExtendedReal → ExtendedReal
  | number x, number y =>
    if x = 0 ∧ (y = ⊤ ∨ y = ⊥) ∨ (x = ⊤ ∨ x = ⊥) ∧ y = 0 then nan else number (x * y)
  | _, _ => nan

/-- The number with the other sign. -/
def neg : ExtendedReal → ExtendedReal
  | number x => number (-x)
  | nan => nan

/-- The multiplicative inverse. That of zero is infinite. -/
def inv : ExtendedReal → ExtendedReal
  | number x => number (if x = 0 then ⊤ else x⁻¹)
  | nan => nan

/-- Whether two values are numbers in a relation. -/
def compare (r : EReal → EReal → Prop) [DecidableRel r] : ExtendedReal → ExtendedReal → Bool
  | number x, number y => decide (r x y)
  | _, _ => false

/-- Whether a value is no number. -/
def isNaN : ExtendedReal → Bool
  | number _ => false
  | nan => true

/-- The exponential. -/
def exp : ExtendedReal → ExtendedReal
  | number x => number x.exp
  | nan => nan

/-- The natural logarithm. Negative numbers have none. -/
def log : ExtendedReal → ExtendedReal
  | number x => if 0 ≤ x then number x.toENNReal.log else nan
  | nan => nan

/-- Real numbers have no text. -/
def text : ExtendedReal → String
  | number _ => ""
  | nan => "NaN"

instance : ExtendedNumber ExtendedReal where
  zero := number 0
  one := number 1
  add := add
  sub a b := add a (neg b)
  mul := mul
  div a b := mul a (inv b)
  neg := neg
  ofScientific m s e := number (OfScientific.ofScientific m s e : ℝ)
  lt := compare (· < ·)
  le := compare (· ≤ ·)
  eq := compare (· = ·)
  isNaN := isNaN
  text := text
  infinity := number ⊤
  nan := nan
  exp := exp
  log := log
  expSubOne a := add (exp a) (neg (number 1))
  logOneAdd a := log (add (number 1) a)

end

open ExtendedNumber

/-! ## Operations on numbers -/

theorem zero_eq : (0 : ExtendedReal) = number 0 := rfl

theorem one_eq : (1 : ExtendedReal) = number 1 := rfl

theorem infinity_eq : (infinity : ExtendedReal) = number ⊤ := rfl

theorem negInfinity_eq : (negInfinity : ExtendedReal) = number ⊥ := rfl

theorem neg_number (x : EReal) : -number x = number (-x) := rfl

@[simp] theorem isNaN_number (x : EReal) : Number.isNaN (number x) = false := rfl

@[simp] theorem lt_number {x y : EReal} : Number.lt (number x) (number y) = true ↔ x < y :=
  decide_eq_true_iff

@[simp] theorem le_number {x y : EReal} : Number.le (number x) (number y) = true ↔ x ≤ y :=
  decide_eq_true_iff

@[simp] theorem eq_number {x y : EReal} : Number.eq (number x) (number y) = true ↔ x = y :=
  decide_eq_true_iff

theorem add_number {x y : EReal} (h : ¬ (x = ⊤ ∧ y = ⊥ ∨ x = ⊥ ∧ y = ⊤)) :
    number x + number y = number (x + y) :=
  if_neg h

theorem mul_number {x y : EReal}
    (h : ¬ (x = 0 ∧ (y = ⊤ ∨ y = ⊥) ∨ (x = ⊤ ∨ x = ⊥) ∧ y = 0)) :
    number x * number y = number (x * y) :=
  if_neg h

theorem inv_number {x : EReal} (h : x ≠ 0) : inv (number x) = number x⁻¹ :=
  congrArg number (if_neg h)

theorem exp_number (x : EReal) : ExtendedNumber.exp (number x) = number x.exp := rfl

/-- Zero annihilates in a product of reals and infinities. -/
theorem annihilatingProduct_number (x y : EReal) :
    annihilatingProduct (number x) (number y) = number (x * y) := by
  unfold annihilatingProduct
  split
  · next h =>
    rw [Bool.or_eq_true, zero_eq, eq_number, eq_number] at h
    rcases h with rfl | rfl
    · rw [zero_mul, zero_eq]
    · rw [mul_zero, zero_eq]
  · next h =>
    rw [Bool.or_eq_true, zero_eq, eq_number, eq_number, not_or] at h
    exact mul_number fun hzero => hzero.elim (fun hx => h.1 hx.1) fun hy => h.2 hy.2

/-! ## Numbers that are zero or more -/

/-- A non-negative number or infinity as an extended real. -/
noncomputable def ofNonneg (x : ℝ≥0∞) : ExtendedReal :=
  number x

theorem ofNonneg_injective : Function.Injective ofNonneg := fun _ _ h =>
  EReal.coe_ennreal_injective (number.inj h)

theorem isNonneg_number {x : EReal} : isNonneg (number x) = true ↔ 0 ≤ x := by
  rw [isNonneg, isNaN_number, Bool.not_false, Bool.true_and, zero_eq, le_number]

theorem isNonneg_iff (a : ExtendedReal) : isNonneg a = true ↔ ∃ x, ofNonneg x = a := by
  cases a with
  | number x =>
    rw [isNonneg_number]
    constructor
    · intro hx
      exact ⟨x.toENNReal, congrArg number (EReal.coe_toENNReal hx)⟩
    · rintro ⟨y, hy⟩
      exact number.inj hy ▸ EReal.coe_ennreal_nonneg y
  | nan => exact iff_of_false Bool.false_ne_true nofun

@[simp] theorem isNonneg_ofNonneg (x : ℝ≥0∞) : isNonneg (ofNonneg x) = true :=
  (isNonneg_iff _).2 ⟨x, rfl⟩

theorem lt_ofNonneg {x y : ℝ≥0∞} : Number.lt (ofNonneg x) (ofNonneg y) = true ↔ x < y :=
  lt_number.trans EReal.coe_ennreal_lt_coe_ennreal_iff

theorem le_ofNonneg {x y : ℝ≥0∞} : Number.le (ofNonneg x) (ofNonneg y) = true ↔ x ≤ y :=
  le_number.trans EReal.coe_ennreal_le_coe_ennreal_iff

theorem ofNonneg_add (x y : ℝ≥0∞) : ofNonneg x + ofNonneg y = ofNonneg (x + y) := by
  rw [ofNonneg, ofNonneg, ofNonneg, EReal.coe_ennreal_add]
  refine add_number ?_
  rintro (⟨-, hy⟩ | ⟨hx, -⟩)
  · exact EReal.coe_ennreal_ne_bot y hy
  · exact EReal.coe_ennreal_ne_bot x hx

theorem ofNonneg_mul (x y : ℝ≥0∞) :
    annihilatingProduct (ofNonneg x) (ofNonneg y) = ofNonneg (x * y) := by
  rw [ofNonneg, ofNonneg, annihilatingProduct_number, ofNonneg, EReal.coe_ennreal_mul]

theorem larger_ofNonneg (x y : ℝ≥0∞) :
    larger (ofNonneg x) (ofNonneg y) = ofNonneg (max x y) := by
  unfold larger
  split
  · next h => rw [max_eq_right (lt_ofNonneg.1 h).le]
  · next h => rw [max_eq_left (not_lt.1 (mt lt_ofNonneg.2 h))]

/-- A guarded operation on numbers that are zero or more. -/
theorem onNonneg_ofNonneg (op : ExtendedReal → ExtendedReal → ExtendedReal) (x y : ℝ≥0∞) :
    onNonneg op (ofNonneg x) (ofNonneg y) = op (ofNonneg x) (ofNonneg y) := by
  simp [onNonneg]

/-- What passes for a probability is a number from zero to one. -/
theorem isProbability_iff (p : ExtendedReal) :
    GrammarError.isProbability p = true ↔ ∃ x : ℝ≥0∞, x ≤ 1 ∧ ofNonneg x = p := by
  cases p with
  | number x =>
    have hprobability : GrammarError.isProbability (number x) = true ↔ 0 ≤ x ∧ x ≤ 1 := by
      simp [GrammarError.isProbability, ← Bool.not_eq_true, zero_eq, one_eq]
    rw [hprobability]
    constructor
    · rintro ⟨hx, hle⟩
      refine ⟨x.toENNReal, ?_, congrArg number (EReal.coe_toENNReal hx)⟩
      rw [← EReal.coe_ennreal_le_coe_ennreal_iff, EReal.coe_toENNReal hx, EReal.coe_ennreal_one]
      exact hle
    · rintro ⟨y, hy, heq⟩
      obtain rfl := number.inj heq
      exact ⟨EReal.coe_ennreal_nonneg y, EReal.coe_ennreal_le_coe_ennreal_iff.2 hy⟩
  | nan => exact iff_of_false Bool.false_ne_true (by rintro ⟨_, -, ⟨⟩⟩)

end ExtendedReal

end SemiringParsing
