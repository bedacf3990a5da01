import Mathlib
import SemiringParsing.Proofs.Algebra.Best
import SemiringParsing.Proofs.Algebra.StarSemiring
import SemiringParsing.Proofs.Number.Real

/-!
# Closures over the extended reals

Probabilities over the extended reals are computed in the semiring `ℝ≥0∞`. The closure of `x` is the
inverse of `1 - x`, and what is not below one has an infinite closure since there nothing is left of
the difference. Scores of best derivations differ only in that the larger of two scores takes the
place of their sum: the closure is one up to one, and infinite above.

Both are least among the solutions of the equation of the closure, so both algebras are star
semirings (`isStarSemiring_probability`, `isStarSemiring_viterbi`).
-/

namespace SemiringParsing

open ENNReal ExtendedNumber

/-! ## Solutions of the equation of the closure -/

theorem inv_one_sub_eq (x : ℝ≥0∞) : (1 - x)⁻¹ = 1 + x * (1 - x)⁻¹ := by
  rcases lt_or_ge x 1 with hlt | hge
  · have hsub : 1 - x ≠ 0 := (tsub_pos_of_lt hlt).ne'
    have htop : 1 - x ≠ ∞ := ENNReal.sub_ne_top one_ne_top
    calc (1 - x)⁻¹ = (1 - x + x) * (1 - x)⁻¹ := by rw [tsub_add_cancel_of_le hlt.le, one_mul]
      _ = 1 + x * (1 - x)⁻¹ := by rw [add_mul, ENNReal.mul_inv_cancel hsub htop]
  · have hne : x ≠ 0 := (one_pos.trans_le hge).ne'
    rw [tsub_eq_zero_of_le hge, ENNReal.inv_zero, ENNReal.mul_top hne, add_top]

/-- Finite solutions are unique. -/
theorem inv_one_sub_le {x y : ℝ≥0∞} (h : y = 1 + x * y) : (1 - x)⁻¹ ≤ y := by
  rcases eq_or_ne y ∞ with rfl | hy
  · exact le_top
  · have hxy : x * y ≠ ∞ := ne_top_of_le_ne_top hy (le_add_self.trans h.ge)
    have hmul : (1 - x) * y = 1 := by
      rw [ENNReal.sub_mul fun _ _ => hy, one_mul]
      exact ENNReal.sub_eq_of_eq_add hxy h
    exact (ENNReal.eq_inv_of_mul_eq_one_left ((mul_comm ..).trans hmul)).ge

theorem ite_le_one_eq (x : ℝ≥0∞) :
    (if x ≤ 1 then 1 else ∞) = max 1 (x * if x ≤ 1 then 1 else ∞) := by
  split
  · next hle => rw [mul_one, max_eq_left hle]
  · next hgt =>
    have hne : x ≠ 0 := (one_pos.trans (not_le.1 hgt)).ne'
    rw [ENNReal.mul_top hne, max_eq_right le_top]

/-- What is multiplied by more than one grows, unless it is infinite. -/
theorem ite_le_one_le {x y : ℝ≥0∞} (h : y = max 1 (x * y)) : (if x ≤ 1 then 1 else ∞) ≤ y := by
  have hone : 1 ≤ y := h ▸ le_max_left 1 (x * y)
  split
  · exact hone
  · next hgt =>
    by_contra htop
    have hlt : y < x * y := by
      calc y = 1 * y := (one_mul y).symm
        _ < x * y := (ENNReal.mul_lt_mul_iff_left (one_pos.trans_le hone).ne'
          (lt_top_iff_ne_top.1 (not_le.1 htop))).2 (not_le.1 hgt)
    exact absurd (le_max_right 1 (x * y)) (not_le.2 (h ▸ hlt))

namespace ExtendedReal

open ScoreAlgebra

/-! ## Probabilities -/

theorem one_eq_ofNonneg : (1 : ExtendedReal) = ofNonneg 1 := by
  rw [ofNonneg, EReal.coe_ennreal_one, one_eq]

theorem zero_eq_ofNonneg : (0 : ExtendedReal) = ofNonneg 0 := by
  rw [ofNonneg, EReal.coe_ennreal_zero, zero_eq]

theorem infinity_eq_ofNonneg : (infinity : ExtendedReal) = ofNonneg ∞ := by
  rw [ofNonneg, EReal.coe_ennreal_top, infinity_eq]

theorem one_sub_ofNonneg {x : ℝ≥0∞} (h : x ≤ 1) : 1 - ofNonneg x = ofNonneg (1 - x) := by
  have htop : x ≠ ∞ := (h.trans_lt one_lt_top).ne
  have hnonneg : (0 : EReal) ≤ 1 - x :=
    EReal.sub_nonneg (by simp [htop]) (by simp) |>.2 (EReal.coe_ennreal_le_coe_ennreal_iff.2 h)
  have hsub : (1 - x : EReal).toENNReal = 1 - x := by
    rw [EReal.toENNReal_sub (EReal.coe_ennreal_nonneg x), ← EReal.coe_ennreal_one,
      EReal.toENNReal_coe, EReal.toENNReal_coe]
  rw [ofNonneg, ofNonneg, ← hsub, EReal.coe_toENNReal hnonneg]
  exact add_number (by simp [htop])

theorem one_mul_number (x : EReal) : mul (number 1) (number x) = number x := by
  have hfinite : ¬ ((1 : EReal) = ⊤ ∨ (1 : EReal) = ⊥) :=
    not_or.2 ⟨EReal.coe_ne_top 1, EReal.coe_ne_bot 1⟩
  exact (mul_number (by simp [hfinite])).trans (congrArg number (one_mul x))

theorem one_div_ofNonneg (x : ℝ≥0∞) : 1 / ofNonneg x = ofNonneg x⁻¹ := by
  have hinv : inv (ofNonneg x) = ofNonneg x⁻¹ := by
    rcases eq_or_ne x 0 with rfl | hx
    · rw [ENNReal.inv_zero]
      simp [ofNonneg, inv]
    · rw [ofNonneg, inv_number (EReal.coe_ennreal_ne_zero.2 hx), ofNonneg]
      induction x with
      | top => simp
      | coe x =>
        rw [← ENNReal.coe_inv (ENNReal.coe_ne_zero.1 hx), EReal.coe_nnreal_eq_coe_real,
          EReal.coe_nnreal_eq_coe_real, NNReal.coe_inv, EReal.coe_inv]
  show mul (number 1) (inv (ofNonneg x)) = ofNonneg x⁻¹
  rw [hinv, ofNonneg, one_mul_number]

theorem probability_star_ofNonneg (x : ℝ≥0∞) :
    (probability : ScoreAlgebra ExtendedReal ExtendedReal).star (ofNonneg x) =
      ofNonneg (1 - x)⁻¹ := by
  simp only [probability, isNonneg_ofNonneg, Bool.not_true, Bool.false_eq_true, if_false]
  rw [one_eq_ofNonneg, infinity_eq_ofNonneg]
  split
  · next hlt => rw [← one_eq_ofNonneg, one_sub_ofNonneg (lt_ofNonneg.1 hlt).le, one_div_ofNonneg]
  · next hge =>
    rw [tsub_eq_zero_of_le (not_lt.1 (mt lt_ofNonneg.2 hge)), ENNReal.inv_zero]

/-- Probabilities over the extended reals are computed in the semiring of their values. -/
theorem represents_probability :
    (probability : ScoreAlgebra ExtendedReal ExtendedReal).Represents ofNonneg where
  injective := ofNonneg_injective
  member_iff := isNonneg_iff
  zero := zero_eq_ofNonneg
  one := one_eq_ofNonneg
  plus x y := (onNonneg_ofNonneg _ x y).trans (ofNonneg_add x y)
  times x y := (onNonneg_ofNonneg _ x y).trans (ofNonneg_mul x y)
  star x := ⟨(1 - x)⁻¹, probability_star_ofNonneg x, inv_one_sub_eq x⟩
  ofProbability hp := by
    obtain ⟨x, -, rfl⟩ := (isProbability_iff _).1 hp
    exact isNonneg_ofNonneg x
  eq_iff x y := eq_number.trans EReal.coe_ennreal_eq_coe_ennreal_iff
  not_isNaN _ := rfl

instance : (probability : ScoreAlgebra ExtendedReal ExtendedReal).IsCommSemiring :=
  represents_probability.isCommSemiring fun _ _ h => add_eq_zero.1 h

instance : KeepsSign ExtendedReal := by
  refine represents_probability.isSemiring.keepsSign (isNonneg_number.2 le_top) ?_
  rw [negInfinity_eq, ← Bool.not_eq_true, isNonneg_number, not_le]
  exact EReal.bot_lt_zero

theorem isStarSemiring_probability :
    (probability : ScoreAlgebra ExtendedReal ExtendedReal).IsStarSemiring where
  star_le {a b} ha hb h := by
    obtain ⟨x, rfl⟩ := (isNonneg_iff a).1 ha
    obtain ⟨y, rfl⟩ := (isNonneg_iff b).1 hb
    rw [represents_probability.times, represents_probability.one, represents_probability.plus] at h
    rw [probability_star_ofNonneg, le_ofNonneg]
    exact inv_one_sub_le (ofNonneg_injective h)
  eval_mem_iff := probability_eval_mem_iff

/-! ## Scores of best derivations -/

theorem viterbi_plus_ofNonneg (x y : ℝ≥0∞) :
    (viterbi : ScoreAlgebra ExtendedReal ExtendedReal).plus (ofNonneg x) (ofNonneg y) =
      ofNonneg (max x y) :=
  (onNonneg_ofNonneg _ x y).trans (larger_ofNonneg x y)

theorem viterbi_star_ofNonneg (x : ℝ≥0∞) :
    (viterbi : ScoreAlgebra ExtendedReal ExtendedReal).star (ofNonneg x) =
      ofNonneg (if x ≤ 1 then 1 else ∞) := by
  simp only [viterbi, isNonneg_ofNonneg, Bool.not_true, Bool.false_eq_true, if_false]
  rw [one_eq_ofNonneg, infinity_eq_ofNonneg]
  simp only [le_ofNonneg]
  split
  · rfl
  · rfl

/-- Scores of best derivations are computed in the semiring with the larger of two numbers. -/
theorem represents_viterbi : (viterbi : ScoreAlgebra ExtendedReal ExtendedReal).Represents
    fun x : Best ℝ≥0∞ => ofNonneg x.score where
  injective _ _ h := Best.ext (ofNonneg_injective h)
  member_iff a := (isNonneg_iff a).trans
    ⟨fun ⟨x, hx⟩ => ⟨⟨x⟩, hx⟩, fun ⟨x, hx⟩ => ⟨x.score, hx⟩⟩
  zero := zero_eq_ofNonneg
  one := one_eq_ofNonneg
  plus x y := viterbi_plus_ofNonneg x.score y.score
  times x y := represents_probability.times x.score y.score
  star x := ⟨⟨if x.score ≤ 1 then 1 else ∞⟩, viterbi_star_ofNonneg x.score,
    Best.ext (ite_le_one_eq x.score)⟩
  ofProbability := represents_probability.ofProbability
  eq_iff x y := (represents_probability.eq_iff x.score y.score).trans Best.ext_iff.symm
  not_isNaN x := represents_probability.not_isNaN x.score

instance : (viterbi : ScoreAlgebra ExtendedReal ExtendedReal).IsCommSemiring :=
  represents_viterbi.isCommSemiring fun _ _ => Best.eq_zero_of_add

theorem isStarSemiring_viterbi :
    (viterbi : ScoreAlgebra ExtendedReal ExtendedReal).IsStarSemiring where
  star_le {a b} ha hb h := by
    obtain ⟨x, rfl⟩ := (represents_viterbi.member_iff a).1 ha
    obtain ⟨y, rfl⟩ := (represents_viterbi.member_iff b).1 hb
    rw [represents_viterbi.times, represents_viterbi.one, represents_viterbi.plus] at h
    have hscore := congrArg Best.score (represents_viterbi.injective h)
    rw [viterbi_star_ofNonneg, le_ofNonneg]
    exact ite_le_one_le hscore
  eval_mem_iff := viterbi_eval_mem_iff

/-- **Probabilities and scores of best derivations are star semirings.** Over the extended reals the
members of both algebras are the numbers from zero to infinity. They are commutative semirings, the
closure of a member is the least solution of its equation, and an expression over arbitrary values
has a member as its value exactly if all of these are members. -/
theorem probability_viterbi_isStarSemiring :
    (∀ a : ExtendedReal, probability.member a = true ↔ ∃ x : ℝ≥0∞, ofNonneg x = a) ∧
      (∀ a : ExtendedReal, viterbi.member a = true ↔ ∃ x : ℝ≥0∞, ofNonneg x = a) ∧
      (probability : ScoreAlgebra ExtendedReal ExtendedReal).IsStarSemiring ∧
      (viterbi : ScoreAlgebra ExtendedReal ExtendedReal).IsStarSemiring :=
  ⟨isNonneg_iff, isNonneg_iff, isStarSemiring_probability, isStarSemiring_viterbi⟩

end ExtendedReal

end SemiringParsing
