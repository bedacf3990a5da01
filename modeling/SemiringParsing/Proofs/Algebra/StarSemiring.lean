import SemiringParsing.Proofs.Algebra.Guarded
import SemiringParsing.Proofs.Algebra.Semiring

/-!
# Star semirings

An exact commutative algebra has the law of the closure, `star a = one + a * star a`. Other values
may satisfy it too, as infinity does where `a` is a positive number. The closure is meant to be the
least of them (`ScoreAlgebra.IsStarSemiring`).

The other thing asked of a star semiring is that it computes scores from scores only. An expression
in its operations has a value whatever its leaves are, and that value is a score exactly if all of
them are. For guarded algebras this needs only that no closure hides what is invalid
(`Guarded.eval_mem_iff`).
-/

namespace SemiringParsing

open ExtendedNumber

namespace ScoreAlgebra

/-- An expression in the operations of an algebra, over arbitrary values. -/
inductive Expression (α : Type)
  | value (a : α)
  | plus (e f : Expression α)
  | times (e f : Expression α)
  | star (e : Expression α)

namespace Expression

variable {π α : Type}

/-- The values that an expression is built from. -/
def leaves : Expression α → List α
  | value a => [a]
  | plus e f => e.leaves ++ f.leaves
  | times e f => e.leaves ++ f.leaves
  | star e => e.leaves

/-- The value of an expression in an algebra. -/
def eval (S : ScoreAlgebra π α) : Expression α → α
  | value a => a
  | plus e f => S.plus (e.eval S) (f.eval S)
  | times e f => S.times (e.eval S) (f.eval S)
  | star e => S.star (e.eval S)

end Expression

variable {π α : Type} [Number π]

/-- The members are a commutative semiring, the closure of one is the least solution of its
equation, and what is computed is a member only where it is computed from members. -/
structure IsStarSemiring [Number α] (S : ScoreAlgebra π α) : Prop extends S.IsCommSemiring where
  star_le : ∀ {a b}, S.member a = true → S.member b = true → b = S.plus S.one (S.times a b) →
    Number.le (S.star a) b = true
  eval_mem_iff : ∀ e : Expression α, S.member (e.eval S) = true ↔ ∀ a ∈ e.leaves, S.member a = true

/-- Nothing that is computed from an invalid value is valid. -/
theorem Guarded.eval_mem_iff {S : ScoreAlgebra π α} (h : S.Guarded)
    (hstar : ∀ {a}, S.member (S.star a) = true → S.member a = true) (e : Expression α) :
    S.member (e.eval S) = true ↔ ∀ a ∈ e.leaves, S.member a = true := by
  induction e with
  | value a => rw [Expression.eval, Expression.leaves, List.forall_mem_singleton]
  | plus e f ihe ihf =>
    rw [Expression.eval, Expression.leaves, h.plus_mem_iff, ihe, ihf, List.forall_mem_append]
  | times e f ihe ihf =>
    rw [Expression.eval, Expression.leaves, h.times_mem_iff, ihe, ihf, List.forall_mem_append]
  | star e ih => exact ⟨fun hmem => ih.1 (hstar hmem), fun hmem => h.star_mem (ih.2 hmem)⟩

/-! ## Probabilities and best derivations -/

section Nonneg

variable [ExtendedNumber α] [KeepsSign α]

/-- A closure that answers negative infinity for whatever is not zero or more. -/
theorem isNonneg_of_isNonneg_guard {a b : α}
    (h : isNonneg (if !isNonneg a then negInfinity else b) = true) : isNonneg a = true := by
  by_contra ha
  rw [if_pos (by simpa using ha), KeepsSign.isNonneg_negInfinity] at h
  exact Bool.false_ne_true h

theorem probability_eval_mem_iff (e : Expression α) :
    (probability : ScoreAlgebra α α).member (e.eval probability) = true ↔
      ∀ a ∈ e.leaves, (probability : ScoreAlgebra α α).member a = true :=
  guarded_probability.eval_mem_iff isNonneg_of_isNonneg_guard e

theorem viterbi_eval_mem_iff (e : Expression α) :
    (viterbi : ScoreAlgebra α α).member (e.eval viterbi) = true ↔
      ∀ a ∈ e.leaves, (viterbi : ScoreAlgebra α α).member a = true :=
  guarded_viterbi.eval_mem_iff isNonneg_of_isNonneg_guard e

end Nonneg

end ScoreAlgebra

end SemiringParsing
