import Mathlib
import SemiringParsing.Proofs.Algebra.Semiring
import SemiringParsing.Proofs.Number.Exact

/-!
# Exact non-negative numbers

The non-negative rational numbers with infinity are a commutative semiring. The algebra of
probabilities over exact numbers computes in it (`represents_probability`), so it has the laws that
the theorems on total weights ask for.
-/

namespace SemiringParsing

namespace ScoreAlgebra

variable {π α : Type} [Number π]

/-- The members of an algebra are the values of a commutative semiring, and its operations are those
of the semiring. -/
structure Represents {R : Type} [CommSemiring R] (S : ScoreAlgebra π α) (embed : R → α) :
    Prop where
  injective : Function.Injective embed
  member_iff : ∀ a, S.member a = true ↔ ∃ x, embed x = a
  zero : S.zero = embed 0
  one : S.one = embed 1
  plus : ∀ x y, S.plus (embed x) (embed y) = embed (x + y)
  times : ∀ x y, S.times (embed x) (embed y) = embed (x * y)
  star : ∀ x, ∃ y, S.star (embed x) = embed y ∧ y = 1 + x * y
  ofProbability : ∀ {p}, GrammarError.isProbability p = true →
    S.member (S.ofProbability p) = true
  eq_iff : ∀ x y, S.eq (embed x) (embed y) = true ↔ x = y
  not_isNaN : ∀ x, S.isNaN (embed x) = false

namespace Represents

variable {R : Type} [CommSemiring R] {S : ScoreAlgebra π α} {embed : R → α}

theorem mem (h : S.Represents embed) (x : R) : S.member (embed x) = true :=
  (h.member_iff _).2 ⟨x, rfl⟩

/-- The laws of the semiring are laws of the algebra. -/
theorem isSemiring (h : S.Represents embed) : S.IsSemiring := by
  have hof : ∀ {a}, S.member a = true → ∃ x, embed x = a := fun ha => (h.member_iff _).1 ha
  constructor
  case zero_mem => exact h.zero ▸ h.mem 0
  case one_mem => exact h.one ▸ h.mem 1
  case ofProbability_mem => exact h.ofProbability
  case plus_mem =>
    intro a b ha hb
    obtain ⟨x, rfl⟩ := hof ha
    obtain ⟨y, rfl⟩ := hof hb
    exact h.plus x y ▸ h.mem _
  case times_mem =>
    intro a b ha hb
    obtain ⟨x, rfl⟩ := hof ha
    obtain ⟨y, rfl⟩ := hof hb
    exact h.times x y ▸ h.mem _
  case star_mem =>
    intro a ha
    obtain ⟨x, rfl⟩ := hof ha
    obtain ⟨y, hy, -⟩ := h.star x
    exact hy ▸ h.mem y
  case plus_assoc =>
    intro a b c ha hb hc
    obtain ⟨x, rfl⟩ := hof ha
    obtain ⟨y, rfl⟩ := hof hb
    obtain ⟨z, rfl⟩ := hof hc
    simp only [h.plus, add_assoc]
  case plus_comm =>
    intro a b ha hb
    obtain ⟨x, rfl⟩ := hof ha
    obtain ⟨y, rfl⟩ := hof hb
    simp only [h.plus, add_comm]
  case times_assoc =>
    intro a b c ha hb hc
    obtain ⟨x, rfl⟩ := hof ha
    obtain ⟨y, rfl⟩ := hof hb
    obtain ⟨z, rfl⟩ := hof hc
    simp only [h.times, mul_assoc]
  case times_plus =>
    intro a b c ha hb hc
    obtain ⟨x, rfl⟩ := hof ha
    obtain ⟨y, rfl⟩ := hof hb
    obtain ⟨z, rfl⟩ := hof hc
    simp only [h.plus, h.times, mul_add]
  case plus_times =>
    intro a b c ha hb hc
    obtain ⟨x, rfl⟩ := hof ha
    obtain ⟨y, rfl⟩ := hof hb
    obtain ⟨z, rfl⟩ := hof hc
    simp only [h.plus, h.times, add_mul]
  case eq_iff =>
    intro a b ha hb
    obtain ⟨x, rfl⟩ := hof ha
    obtain ⟨y, rfl⟩ := hof hb
    rw [h.eq_iff, h.injective.eq_iff]
  all_goals
    intro a ha
    obtain ⟨x, rfl⟩ := hof ha
    simp only [h.zero, h.one, h.plus, h.times, h.not_isNaN, zero_add, one_mul, mul_one, zero_mul,
      mul_zero]

/-- If nothing in the semiring adds up to zero or is a divisor of zero this is so in the algebra. -/
theorem isCommSemiring [NoZeroDivisors R] (h : S.Represents embed)
    (hsum : ∀ x y : R, x + y = 0 → x = 0 ∧ y = 0) : S.IsCommSemiring := by
  have hof : ∀ {a}, S.member a = true → ∃ x, embed x = a := fun ha => (h.member_iff _).1 ha
  refine
    { h.isSemiring with
      times_comm := ?_
      star_eq := ?_
      eq_zero_of_plus := ?_
      eq_zero_of_times := ?_ }
  · intro a b ha hb
    obtain ⟨x, rfl⟩ := hof ha
    obtain ⟨y, rfl⟩ := hof hb
    simp only [h.times, mul_comm]
  · intro a ha
    obtain ⟨x, rfl⟩ := hof ha
    obtain ⟨y, hy, hlaw⟩ := h.star x
    rw [hy, h.one, h.times, h.plus, ← hlaw]
  · intro a b ha hb hzero
    obtain ⟨x, rfl⟩ := hof ha
    obtain ⟨y, rfl⟩ := hof hb
    rw [h.zero, h.plus] at hzero
    obtain ⟨rfl, rfl⟩ := hsum x y (h.injective hzero)
    exact ⟨h.zero.symm, h.zero.symm⟩
  · intro a b ha hb hzero
    obtain ⟨x, rfl⟩ := hof ha
    obtain ⟨y, rfl⟩ := hof hb
    rw [h.zero, h.times] at hzero
    rw [h.zero, h.injective.eq_iff, h.injective.eq_iff]
    exact mul_eq_zero.1 (h.injective hzero)

end Represents

end ScoreAlgebra

namespace Exact

open ExtendedNumber

/-- A non-negative number or infinity as an exact number. -/
def ofNonneg : WithTop ℚ≥0 → Exact
  | none => infinity
  | some q => number q

theorem ofNonneg_injective : Function.Injective ofNonneg := by
  rintro (_ | p) (_ | q) h
  · rfl
  · cases h
  · cases h
  · exact congrArg some (NNRat.coe_inj.1 (Exact.number.inj h))

theorem isNonneg_number (q : ℚ) : isNonneg (number q) = true ↔ 0 ≤ q := by
  show (!(number q == nan) && (decide (0 < q) || Exact.eq (number 0) (number q))) = true ↔ 0 ≤ q
  simp [Exact.eq, le_iff_lt_or_eq]

theorem isNonneg_iff (a : Exact) : isNonneg a = true ↔ ∃ x, ofNonneg x = a := by
  cases a with
  | number q =>
    rw [isNonneg_number]
    constructor
    · intro hq
      exact ⟨some ⟨q, hq⟩, rfl⟩
    · rintro ⟨_ | p, h⟩
      · cases h
      · exact Exact.number.inj h ▸ p.2
  | infinity => exact ⟨fun _ => ⟨none, rfl⟩, fun _ => rfl⟩
  | negInfinity =>
    refine ⟨fun h => absurd h (by decide), ?_⟩
    rintro ⟨_ | p, h⟩
    · cases h
    · cases h
  | nan =>
    refine ⟨fun h => absurd h (by decide), ?_⟩
    rintro ⟨_ | p, h⟩
    · cases h
    · cases h

theorem eq_ofNonneg (x y : WithTop ℚ≥0) :
    Number.eq (ofNonneg x) (ofNonneg y) = true ↔ x = y := by
  rw [← ofNonneg_injective.eq_iff]
  show Exact.eq (ofNonneg x) (ofNonneg y) = true ↔ _
  cases x <;> simp [Exact.eq, ofNonneg]

theorem ofNonneg_add (x y : WithTop ℚ≥0) : ofNonneg x + ofNonneg y = ofNonneg (x + y) := by
  cases x with
  | top => cases y <;> rfl
  | coe p =>
    cases y with
    | top => rfl
    | coe q => exact congrArg number (NNRat.coe_add p q).symm

theorem infinityOf_of_ne_zero {q : ℚ≥0} (hq : q ≠ 0) : infinityOf q = infinity := by
  have hpos : (0 : ℚ) < q := NNRat.coe_pos.2 (pos_iff_ne_zero.2 hq)
  rw [infinityOf, if_neg hpos.ne', if_pos hpos]

theorem ofNonneg_mul (x y : WithTop ℚ≥0) :
    annihilatingProduct (ofNonneg x) (ofNonneg y) = ofNonneg (x * y) := by
  have hzero : ∀ x, Number.eq (ofNonneg x) 0 = true ↔ x = 0 := fun x => eq_ofNonneg x 0
  unfold annihilatingProduct
  split
  · next h =>
    rw [Bool.or_eq_true, hzero, hzero] at h
    rw [mul_eq_zero.2 h]
    rfl
  · next h =>
    rw [Bool.or_eq_true, hzero, hzero, not_or] at h
    obtain ⟨hx, hy⟩ := h
    cases x with
    | top =>
      rw [WithTop.top_mul hy]
      cases y with
      | top => rfl
      | coe q => exact infinityOf_of_ne_zero (WithTop.coe_ne_zero.1 hy)
    | coe p =>
      cases y with
      | top =>
        rw [WithTop.mul_top hx]
        exact infinityOf_of_ne_zero (WithTop.coe_ne_zero.1 hx)
      | coe q => exact congrArg number (NNRat.coe_mul p q).symm

/-- The closure of a number below one is the sum of its powers, and that of others infinity. -/
theorem star_ofNonneg (x : WithTop ℚ≥0) : ∃ y,
    (ScoreAlgebra.probability : ScoreAlgebra Exact Exact).star (ofNonneg x) = ofNonneg y ∧
      y = 1 + x * y := by
  have hx : isNonneg (ofNonneg x) = true := (isNonneg_iff _).2 ⟨x, rfl⟩
  simp only [ScoreAlgebra.probability, hx, Bool.not_true, Bool.false_eq_true, if_false]
  split
  · next hlt =>
    cases x with
    | top => exact absurd hlt (by decide)
    | coe q =>
      have hq : (q : ℚ) < 1 := of_decide_eq_true hlt
      have hpos : (0 : ℚ) < 1 + -q := by linarith
      have hne : (1 + -q : ℚ) ≠ 0 := hpos.ne'
      refine ⟨some ⟨(1 + -q)⁻¹, inv_nonneg.2 hpos.le⟩, ?_, ?_⟩
      · have hinv : inv (number (1 + -q)) = number (1 + -q)⁻¹ := if_neg hne
        show mul (number 1) (inv (number (1 + -q))) = number (1 + -q)⁻¹
        rw [hinv, mul, one_mul]
      · refine congrArg WithTop.some (NNRat.coe_inj.1 ?_)
        show (1 + -q : ℚ)⁻¹ = 1 + q * (1 + -q : ℚ)⁻¹
        field_simp
        ring
  · next hge =>
    refine ⟨⊤, rfl, ?_⟩
    have hne : x ≠ 0 := by
      rintro rfl
      exact hge (by decide)
    rw [WithTop.mul_top hne, add_top]

theorem represents_probability :
    (ScoreAlgebra.probability : ScoreAlgebra Exact Exact).Represents ofNonneg where
  injective := ofNonneg_injective
  member_iff := isNonneg_iff
  zero := rfl
  one := rfl
  plus x y := by
    have hx : isNonneg (ofNonneg x) = true := (isNonneg_iff _).2 ⟨x, rfl⟩
    have hy : isNonneg (ofNonneg y) = true := (isNonneg_iff _).2 ⟨y, rfl⟩
    rw [← ofNonneg_add]
    simp [ScoreAlgebra.probability, onNonneg, hx, hy]
  times x y := by
    have hx : isNonneg (ofNonneg x) = true := (isNonneg_iff _).2 ⟨x, rfl⟩
    have hy : isNonneg (ofNonneg y) = true := (isNonneg_iff _).2 ⟨y, rfl⟩
    rw [← ofNonneg_mul]
    simp [ScoreAlgebra.probability, onNonneg, hx, hy]
  star := star_ofNonneg
  ofProbability {p} hp := by
    cases p with
    | number q =>
      have hp : (!(number q == nan) && !decide (q < 0) && !decide (1 < q)) = true := hp
      refine (isNonneg_number q).2 ?_
      simp only [Bool.and_eq_true, Bool.not_eq_true', decide_eq_false_iff_not, not_lt] at hp
      exact hp.1.2
    | infinity => exact absurd hp (by decide)
    | negInfinity => exact absurd hp (by decide)
    | nan => exact absurd hp (by decide)
  eq_iff := eq_ofNonneg
  not_isNaN x := by cases x <;> rfl

instance : (ScoreAlgebra.probability : ScoreAlgebra Exact Exact).IsCommSemiring :=
  represents_probability.isCommSemiring fun _ _ h => add_eq_zero.1 h

end Exact

end SemiringParsing
