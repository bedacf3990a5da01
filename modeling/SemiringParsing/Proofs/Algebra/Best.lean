import Mathlib

/-!
# The semiring of best scores

Where no number is below zero, the larger of two numbers has the laws of a sum beside the product of
numbers. With it the numbers are a semiring of their own (`Best`). It has no divisors of zero if the
numbers have none, and of two numbers other than zero the larger is not zero.
-/

namespace SemiringParsing

/-- A number, as the score of a best derivation. -/
@[ext]
structure Best (R : Type) where
  score : R

namespace Best

variable {R : Type}

instance [Zero R] : Zero (Best R) := ⟨⟨0⟩⟩

instance [One R] : One (Best R) := ⟨⟨1⟩⟩

instance [Max R] : Add (Best R) := ⟨fun a b => ⟨max a.score b.score⟩⟩

instance [Mul R] : Mul (Best R) := ⟨fun a b => ⟨a.score * b.score⟩⟩

@[simp] theorem score_zero [Zero R] : (0 : Best R).score = 0 := rfl

@[simp] theorem score_one [One R] : (1 : Best R).score = 1 := rfl

@[simp] theorem score_add [Max R] (a b : Best R) : (a + b).score = max a.score b.score := rfl

@[simp] theorem score_mul [Mul R] (a b : Best R) : (a * b).score = a.score * b.score := rfl

variable [CommSemiring R]

instance [LinearOrder R] [CanonicallyOrderedAdd R] : CommSemiring (Best R) where
  nsmul := nsmulRec
  add_assoc a b c := Best.ext (max_assoc ..)
  add_comm a b := Best.ext (max_comm ..)
  zero_add a := Best.ext (max_eq_right zero_le)
  add_zero a := Best.ext (max_eq_left zero_le)
  mul_assoc a b c := Best.ext (mul_assoc ..)
  mul_comm a b := Best.ext (mul_comm ..)
  one_mul a := Best.ext (one_mul _)
  mul_one a := Best.ext (mul_one _)
  zero_mul a := Best.ext (zero_mul _)
  mul_zero a := Best.ext (mul_zero _)
  left_distrib a b c := Best.ext (mul_max ..)
  right_distrib a b c := Best.ext (max_mul ..)

instance [NoZeroDivisors R] : NoZeroDivisors (Best R) where
  eq_zero_or_eq_zero_of_mul_eq_zero h :=
    (mul_eq_zero.1 (congrArg score h)).imp Best.ext Best.ext

/-- The larger of two scores is zero only if both are. -/
theorem eq_zero_of_add [LinearOrder R] [CanonicallyOrderedAdd R] {a b : Best R} (h : a + b = 0) :
    a = 0 ∧ b = 0 := by
  have hmax := congrArg score h
  rw [score_add, score_zero, ← le_zero_iff, max_le_iff, le_zero_iff, le_zero_iff] at hmax
  exact ⟨Best.ext hmax.1, Best.ext hmax.2⟩

end Best

end SemiringParsing
