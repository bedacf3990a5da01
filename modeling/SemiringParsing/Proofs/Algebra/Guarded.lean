import SemiringParsing.Grammar.Basic
import SemiringParsing.Proofs.Algebra.Positive
import SemiringParsing.Proofs.Algebra.Semiring

/-!
# Algebras in which what is invalid stays so

A sum or a product is a score only when both operands are (`ScoreAlgebra.Guarded`). So a value that
is none shows in all that is computed from it, and no other operand can hide it, not even zero.

Probabilities and scores of best derivations are guarded. All that has to be known of the numbers is
which of their operations keep a sign (`KeepsSign`); rounding does no harm.
-/

namespace SemiringParsing

open ExtendedNumber

/-- What is computed from numbers that are zero or more is zero or more. -/
class KeepsSign (α : Type) [ExtendedNumber α] : Prop where
  isNonneg_zero : isNonneg (0 : α) = true
  isNonneg_one : isNonneg (1 : α) = true
  isNonneg_infinity : isNonneg (infinity : α) = true
  isNonneg_negInfinity : isNonneg (negInfinity : α) = false
  isNonneg_of_isProbability : ∀ {p : α}, GrammarError.isProbability p = true → isNonneg p = true
  isNonneg_add : ∀ {a b : α}, isNonneg a = true → isNonneg b = true → isNonneg (a + b) = true
  /-- The product of zero and infinity may be no number. -/
  isNonneg_mul : ∀ {a b : α}, isNonneg a = true → isNonneg b = true →
    Number.eq a 0 = false → Number.eq b 0 = false → isNonneg (a * b) = true
  isNonneg_geometric : ∀ {a : α}, isNonneg a = true → Number.lt a 1 = true →
    isNonneg (1 / (1 - a)) = true

namespace ScoreAlgebra

/-- What is combined or composed is a score exactly when both operands are. -/
structure Guarded {π α : Type} [Number π] (S : ScoreAlgebra π α) : Prop where
  zero_mem : S.member S.zero = true
  one_mem : S.member S.one = true
  ofProbability_mem : ∀ {p}, GrammarError.isProbability p = true →
    S.member (S.ofProbability p) = true
  plus_mem_iff : ∀ a b, S.member (S.plus a b) = true ↔ S.member a = true ∧ S.member b = true
  times_mem_iff : ∀ a b, S.member (S.times a b) = true ↔ S.member a = true ∧ S.member b = true
  star_mem : ∀ {a}, S.member a = true → S.member (S.star a) = true

theorem Guarded.closed {π α : Type} [Number π] {S : ScoreAlgebra π α} (h : S.Guarded) :
    S.Closed fun a => S.member a = true where
  zero := h.zero_mem
  one := h.one_mem
  plus ha hb := (h.plus_mem_iff _ _).2 ⟨ha, hb⟩
  times ha hb := (h.times_mem_iff _ _).2 ⟨ha, hb⟩
  star := h.star_mem

/-- Numbers over which probabilities are a semiring keep signs. -/
theorem IsSemiring.keepsSign {α : Type} [ExtendedNumber α]
    (h : (probability : ScoreAlgebra α α).IsSemiring)
    (hinfinity : isNonneg (infinity : α) = true)
    (hnegInfinity : isNonneg (negInfinity : α) = false) : KeepsSign α where
  isNonneg_zero := h.zero_mem
  isNonneg_one := h.one_mem
  isNonneg_infinity := hinfinity
  isNonneg_negInfinity := hnegInfinity
  isNonneg_of_isProbability := h.ofProbability_mem
  isNonneg_add {a b} ha hb := by
    have hplus : isNonneg (onNonneg (· + ·) a b) = true := h.plus_mem ha hb
    simpa only [onNonneg, ha, hb, Bool.and_self, if_true] using hplus
  isNonneg_mul {a b} ha hb hazero hbzero := by
    have htimes : isNonneg (onNonneg annihilatingProduct a b) = true := h.times_mem ha hb
    simpa only [onNonneg, annihilatingProduct, ha, hb, hazero, hbzero, Bool.and_self,
      Bool.or_self, Bool.false_eq_true, if_true, if_false] using htimes
  isNonneg_geometric {a} ha hlt := by
    have hstar : isNonneg ((probability : ScoreAlgebra α α).star a) = true := h.star_mem ha
    simpa only [probability, ha, hlt, Bool.not_true, Bool.false_eq_true, if_true, if_false]
      using hstar

variable {α : Type} [ExtendedNumber α] [KeepsSign α]

/-- An operation that is guarded answers negative infinity for whatever is not zero or more. -/
theorem isNonneg_onNonneg {op : α → α → α}
    (hop : ∀ {a b}, isNonneg a = true → isNonneg b = true → isNonneg (op a b) = true) (a b : α) :
    isNonneg (onNonneg op a b) = true ↔ isNonneg a = true ∧ isNonneg b = true := by
  rw [← Bool.and_eq_true]
  unfold onNonneg
  split
  · next h => exact iff_of_true (hop (Bool.and_eq_true_iff.1 h).1 (Bool.and_eq_true_iff.1 h).2) h
  · next h => exact iff_of_false (by simp [KeepsSign.isNonneg_negInfinity]) h

theorem isNonneg_annihilatingProduct {a b : α} (ha : isNonneg a = true) (hb : isNonneg b = true) :
    isNonneg (annihilatingProduct a b) = true := by
  unfold annihilatingProduct
  split
  · exact KeepsSign.isNonneg_zero
  · next h =>
    rw [Bool.or_eq_true, not_or, Bool.not_eq_true, Bool.not_eq_true] at h
    exact KeepsSign.isNonneg_mul ha hb h.1 h.2

omit [KeepsSign α] in
theorem isNonneg_larger {a b : α} (ha : isNonneg a = true) (hb : isNonneg b = true) :
    isNonneg (larger a b) = true := by
  unfold larger
  split
  · exact hb
  · exact ha

theorem guarded_probability : (probability : ScoreAlgebra α α).Guarded where
  zero_mem := KeepsSign.isNonneg_zero
  one_mem := KeepsSign.isNonneg_one
  ofProbability_mem := KeepsSign.isNonneg_of_isProbability
  plus_mem_iff := isNonneg_onNonneg KeepsSign.isNonneg_add
  times_mem_iff := isNonneg_onNonneg isNonneg_annihilatingProduct
  star_mem {a} ha := by
    have ha : isNonneg a = true := ha
    simp only [probability, ha, Bool.not_true, Bool.false_eq_true, if_false]
    split
    · next hlt => exact KeepsSign.isNonneg_geometric ha hlt
    · exact KeepsSign.isNonneg_infinity

theorem guarded_viterbi : (viterbi : ScoreAlgebra α α).Guarded where
  zero_mem := KeepsSign.isNonneg_zero
  one_mem := KeepsSign.isNonneg_one
  ofProbability_mem := KeepsSign.isNonneg_of_isProbability
  plus_mem_iff := isNonneg_onNonneg isNonneg_larger
  times_mem_iff := isNonneg_onNonneg isNonneg_annihilatingProduct
  star_mem {a} ha := by
    have ha : isNonneg a = true := ha
    simp only [viterbi, ha, Bool.not_true, Bool.false_eq_true, if_false]
    split
    · exact KeepsSign.isNonneg_one
    · exact KeepsSign.isNonneg_infinity

end ScoreAlgebra

end SemiringParsing
