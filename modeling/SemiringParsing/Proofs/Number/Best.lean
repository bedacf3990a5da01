import SemiringParsing.Proofs.Algebra.Best
import SemiringParsing.Proofs.Algebra.Selective
import SemiringParsing.Proofs.Number.Nonneg

/-!
# Best scores over exact numbers

The algebra of best derivations over exact numbers computes in the semiring of best scores that are
non-negative rational numbers or infinity (`Exact.represents_viterbi`), so it is selective.
-/

namespace SemiringParsing

namespace Exact

open ExtendedNumber ScoreAlgebra

theorem lt_ofNonneg (x y : WithTop ℚ≥0) : Number.lt (ofNonneg x) (ofNonneg y) = true ↔ x < y := by
  cases x with
  | top => cases y <;> simp [ofNonneg, Number.lt, Exact.lt]
  | coe p =>
    cases y with
    | top => exact iff_of_true rfl (WithTop.coe_lt_top p)
    | coe q =>
      rw [WithTop.coe_lt_coe, ← NNRat.coe_lt_coe]
      exact decide_eq_true_iff

theorem le_ofNonneg (x y : WithTop ℚ≥0) : Number.le (ofNonneg x) (ofNonneg y) = true ↔ x ≤ y := by
  show (Number.lt (ofNonneg x) (ofNonneg y) || Number.eq (ofNonneg x) (ofNonneg y)) = true ↔ _
  rw [Bool.or_eq_true, lt_ofNonneg, eq_ofNonneg, le_iff_lt_or_eq]

theorem larger_ofNonneg (x y : WithTop ℚ≥0) :
    larger (ofNonneg x) (ofNonneg y) = ofNonneg (max x y) := by
  unfold larger
  split
  · next h => rw [max_eq_right (le_of_lt ((lt_ofNonneg x y).1 h))]
  · next h => rw [max_eq_left (not_lt.1 (mt (lt_ofNonneg x y).2 h))]

/-- Going around what scores at most one is as good as standing still, and around what scores more
it gets ever better. -/
theorem viterbi_star_ofNonneg (x : WithTop ℚ≥0) :
    (viterbi : ScoreAlgebra Exact Exact).star (ofNonneg x) =
      ofNonneg (if x ≤ 1 then 1 else ⊤) := by
  have hx : isNonneg (ofNonneg x) = true := (isNonneg_iff _).2 ⟨x, rfl⟩
  have hle : Number.le (ofNonneg x) 1 = true ↔ x ≤ 1 := le_ofNonneg x 1
  simp only [viterbi, hx, Bool.not_true, Bool.false_eq_true, if_false, hle]
  split
  · rfl
  · rfl

theorem represents_viterbi : (viterbi : ScoreAlgebra Exact Exact).Represents
    fun x : Best (WithTop ℚ≥0) => ofNonneg x.score where
  injective _ _ h := Best.ext (ofNonneg_injective h)
  member_iff a := by
    rw [show viterbi.member a = isNonneg a from rfl, isNonneg_iff]
    exact ⟨fun ⟨x, hx⟩ => ⟨⟨x⟩, hx⟩, fun ⟨x, hx⟩ => ⟨x.score, hx⟩⟩
  zero := rfl
  one := rfl
  plus x y := by
    have hx : isNonneg (ofNonneg x.score) = true := (isNonneg_iff _).2 ⟨_, rfl⟩
    have hy : isNonneg (ofNonneg y.score) = true := (isNonneg_iff _).2 ⟨_, rfl⟩
    rw [Best.score_add, ← larger_ofNonneg]
    simp [viterbi, onNonneg, hx, hy]
  times x y := represents_probability.times x.score y.score
  star x := by
    refine ⟨⟨if x.score ≤ 1 then 1 else ⊤⟩, viterbi_star_ofNonneg x.score, Best.ext ?_⟩
    rw [Best.score_add, Best.score_mul, Best.score_one]
    dsimp only
    split
    · next hle => rw [mul_one, max_eq_left hle]
    · next hgt =>
      have hne : x.score ≠ 0 := by
        rintro hzero
        exact hgt (hzero ▸ zero_le)
      rw [WithTop.mul_top hne, max_eq_right le_top]
  ofProbability := represents_probability.ofProbability
  eq_iff x y := (eq_ofNonneg x.score y.score).trans Best.ext_iff.symm
  not_isNaN x := represents_probability.not_isNaN x.score

instance : (viterbi : ScoreAlgebra Exact Exact).IsCommSemiring :=
  represents_viterbi.isCommSemiring fun _ _ => Best.eq_zero_of_add

/-- Of a probability it is known that it is at most one. -/
theorem le_one_of_isProbability {x : WithTop ℚ≥0}
    (h : GrammarError.isProbability (ofNonneg x) = true) : x ≤ 1 := by
  have hlt : ¬ Number.lt 1 (ofNonneg x) = true := by
    simp only [GrammarError.isProbability, Bool.and_eq_true, Bool.not_eq_true'] at h
    simp [h]
  exact not_lt.1 (mt (lt_ofNonneg 1 x).2 hlt)

instance : (viterbi : ScoreAlgebra Exact Exact).IsSelective where
  plus_eq {a b} ha hb := by
    obtain ⟨x, rfl⟩ := (represents_viterbi.member_iff a).1 ha
    obtain ⟨y, rfl⟩ := (represents_viterbi.member_iff b).1 hb
    rw [represents_viterbi.plus, Best.score_add]
    exact (max_choice x.score y.score).imp (congrArg ofNonneg) (congrArg ofNonneg)
  one_plus {p} hp := by
    obtain ⟨x, hx⟩ := (represents_viterbi.member_iff p).1 (represents_viterbi.ofProbability hp)
    subst hx
    have hone : 1 + x = 1 := Best.ext (max_eq_left (le_one_of_isProbability hp))
    exact (represents_viterbi.plus 1 x).trans (congrArg (fun x => ofNonneg x.score) hone)
  star_eq_one {a} ha hle := by
    obtain ⟨x, rfl⟩ := (represents_viterbi.member_iff a).1 ha
    have hle : 1 + x = 1 :=
      represents_viterbi.injective ((represents_viterbi.plus 1 x).symm.trans hle)
    have hscore : x.score ≤ 1 := max_eq_left_iff.1 (congrArg Best.score hle)
    rw [viterbi_star_ofNonneg, if_pos hscore]
    rfl

end Exact

end SemiringParsing
