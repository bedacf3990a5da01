import Mathlib.Algebra.Field.Rat
import Mathlib.Algebra.Order.Ring.Rat
import SemiringParsing.Grammar.Examples

/-!
# Rational numbers

The checks on a grammar read over the rational numbers: nothing is rounded and every value is a
number.
-/

namespace SemiringParsing

instance : Number ℚ where
  lt p q := decide (p < q)
  le p q := decide (p ≤ q)
  eq p q := decide (p = q)
  isNaN _ := false
  text := toString

namespace Rational

variable {p q : ℚ}

@[simp] theorem lt_eq_true : Number.lt p q = true ↔ p < q := decide_eq_true_iff

@[simp] theorem le_eq_true : Number.le p q = true ↔ p ≤ q := decide_eq_true_iff

@[simp] theorem le_eq_false : Number.le p q = false ↔ q < p :=
  decide_eq_false_iff_not.trans not_le

@[simp] theorem eq_eq_true : Number.eq p q = true ↔ p = q := decide_eq_true_iff

theorem isProbability_iff : GrammarError.isProbability p = true ↔ 0 ≤ p ∧ p ≤ 1 := by
  have hlt : ∀ a b : ℚ, Number.lt a b = decide (a < b) := fun _ _ => rfl
  have hnan : Number.isNaN p = false := rfl
  simp [GrammarError.isProbability, hlt, hnan]

end Rational

end SemiringParsing
