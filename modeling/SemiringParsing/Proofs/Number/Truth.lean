import SemiringParsing.Number.Double
import SemiringParsing.Proofs.Algebra.Truth

/-!
# Truth values

Over exact numbers zero and one are told from all others and from each other. So reachability, which
computes with the two of them, is an exact algebra. Doubles tell zero from one too, so that what is
proved of reachability over such numbers holds of doubles.
-/

namespace SemiringParsing

instance : TellsZeroFromOne Float where
  zero_eq_zero := by decide
  one_eq_one := by decide
  zero_eq_one := by decide
  one_eq_zero := by decide

instance : TellsTruth Exact where
  not_isNaN_zero := by decide
  not_isNaN_one := by decide

instance : TellsTruth Float where
  not_isNaN_zero := by decide
  not_isNaN_one := by decide

namespace Exact

open ExtendedNumber ScoreAlgebra

theorem isTruth_iff (a : Exact) : isTruth a = true ↔ ∃ b : Bool, ofTruth b = a := by
  constructor
  · intro h
    have h : (Exact.eq a (number 0) || Exact.eq a (number 1)) = true := h
    simp only [Exact.eq, Bool.or_eq_true, Bool.and_eq_true, beq_iff_eq] at h
    rcases h with ⟨-, rfl⟩ | ⟨-, rfl⟩
    · exact ⟨false, rfl⟩
    · exact ⟨true, rfl⟩
  · rintro ⟨b, rfl⟩
    exact isTruth_ofTruth b

theorem isSemiring_boolean : (boolean : ScoreAlgebra Exact Exact).IsSemiring :=
  (represents_boolean isTruth_iff).isSemiring

end Exact

end SemiringParsing
