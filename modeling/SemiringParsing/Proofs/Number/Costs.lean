import Mathlib
import SemiringParsing.Proofs.Number.Closure

/-!
# Costs are probabilities on another scale

The cost of a probability is its negative logarithm. Over the extended reals all numbers are costs,
from negative infinity, which is the cost of infinity, up to infinity, which is that of zero. The
algebra of negative log probabilities computes with costs what the algebra of probabilities computes
with what they are the costs of. `cost` says so from the side of probabilities, where its operations
are those of `ℝ≥0∞` (`represents_negLog`). `ScoreAlgebra.Mirrors` says it from the side of costs,
with `e ^ (-a)` for the probability of a cost `a`.
-/

namespace SemiringParsing

open ENNReal ExtendedNumber

/-- The scores of one algebra are those of another on a scale of their own that runs the other way.
The function takes them to the scores that they stand for. -/
structure ScoreAlgebra.Mirrors {α : Type} [Number α] (S T : ScoreAlgebra α α) (h : α → α) :
    Prop where
  bijOn : Set.BijOn h {a | S.member a = true} {a | T.member a = true}
  plus : ∀ {a b}, S.member a = true → S.member b = true → h (S.plus a b) = T.plus (h a) (h b)
  times : ∀ {a b}, S.member a = true → S.member b = true → h (S.times a b) = T.times (h a) (h b)
  zero : h S.zero = T.zero
  one : h S.one = T.one
  star : ∀ {a}, S.member a = true → h (S.star a) = T.star (h a)
  ofProbability : ∀ {p}, GrammarError.isProbability p = true →
    h (S.ofProbability p) = T.ofProbability p
  toProbability : ∀ a, S.toProbability a = h a
  le_iff : ∀ {a b}, S.member a = true → S.member b = true →
    (Number.le a b = true ↔ Number.le (h b) (h a) = true)

namespace ExtendedReal

open ScoreAlgebra

/-- The cost of a non-negative number or infinity. -/
noncomputable def cost (p : ℝ≥0∞) : ExtendedReal :=
  number (-ENNReal.log p)

/-! ## Costs of numbers -/

theorem cost_zero : cost 0 = number ⊤ := by
  rw [cost, log_zero, EReal.neg_bot]

theorem cost_top : cost ∞ = number ⊥ := by
  rw [cost, log_top, EReal.neg_top]

theorem cost_one : cost 1 = number 0 := by
  rw [cost, log_one, neg_zero]

theorem cost_injective : Function.Injective cost := fun _ _ h =>
  log_injective (neg_injective (number.inj h))

theorem exists_cost_eq (x : EReal) : ∃ p, cost p = number x := by
  obtain ⟨p, hp⟩ := log_surjective (-x)
  exact ⟨p, by rw [cost, hp, neg_neg]⟩

theorem cost_eq_infinity {p : ℝ≥0∞} : Number.eq (cost p) infinity = true ↔ p = 0 := by
  rw [cost, infinity_eq, eq_number, EReal.neg_eq_top_iff, log_eq_bot_iff]

theorem cost_eq_negInfinity {p : ℝ≥0∞} : Number.eq (cost p) negInfinity = true ↔ p = ∞ := by
  rw [cost, negInfinity_eq, eq_number, EReal.neg_eq_bot_iff, log_eq_top_iff]

/-- What is likelier costs less. -/
theorem lt_cost {p q : ℝ≥0∞} : Number.lt (cost p) (cost q) = true ↔ q < p := by
  rw [cost, cost, lt_number, EReal.neg_lt_neg_iff, log_lt_log_iff]

theorem le_cost {p q : ℝ≥0∞} : Number.le (cost p) (cost q) = true ↔ q ≤ p := by
  rw [cost, cost, le_number, EReal.neg_le_neg_iff, log_le_log_iff]

theorem log_ofNonneg (x : ℝ≥0∞) : ExtendedNumber.log (ofNonneg x) = number (ENNReal.log x) := by
  show (if 0 ≤ (x : EReal) then number (x : EReal).toENNReal.log else nan) = _
  rw [if_pos (EReal.coe_ennreal_nonneg x), EReal.toENNReal_coe]

theorem exp_number_log (x : ℝ≥0∞) :
    ExtendedNumber.exp (number (ENNReal.log x)) = ofNonneg x := by
  rw [exp_number, ENNReal.exp_log, ofNonneg]

/-- The probability of a cost. -/
theorem exp_neg_cost (p : ℝ≥0∞) : ExtendedNumber.exp (-cost p) = ofNonneg p := by
  rw [cost, neg_number, neg_neg, exp_number_log]

theorem logOneAdd_ofNonneg (x : ℝ≥0∞) :
    logOneAdd (ofNonneg x) = number (ENNReal.log (1 + x)) := by
  show ExtendedNumber.log (1 + ofNonneg x) = _
  rw [one_eq_ofNonneg, ofNonneg_add, log_ofNonneg]

/-! ## Operations on costs -/

/-- The difference of two costs is the cost of a quotient. -/
theorem exp_neg_sub_cost {p q : ℝ≥0∞} (hq : q ≠ 0) (hp : p ≠ ∞) :
    ExtendedNumber.exp (-(cost q - cost p)) = ofNonneg (q * p⁻¹) := by
  have hlogq : -ENNReal.log q ≠ ⊤ := by simpa using hq
  have hlogp : - -ENNReal.log p ≠ ⊤ := by simpa using hp
  have hsub : cost q - cost p = number (-ENNReal.log q + - -ENNReal.log p) :=
    add_number fun h => h.elim (fun h => hlogq h.1) fun h => hlogp h.2
  rw [hsub, neg_number, EReal.neg_add (.inr hlogp) (.inl hlogq), neg_neg, neg_neg,
    sub_eq_add_neg, ← log_inv, ← log_mul_add, exp_number_log]

/-- The cost of the sum of two numbers, from the smaller of the two costs. -/
theorem cost_sub_logOneAdd {p q : ℝ≥0∞} (hq : q ≠ 0) (hp : p ≠ ∞) (hle : q ≤ p) :
    cost p - logOneAdd (ExtendedNumber.exp (-(cost q - cost p))) = cost (p + q) := by
  have hp0 : p ≠ 0 := fun h => hq (le_zero_iff.1 (h ▸ hle))
  have hbot : ENNReal.log p ≠ ⊥ := mt log_eq_bot_iff.1 hp0
  have htop : ENNReal.log p ≠ ⊤ := mt log_eq_top_iff.1 hp
  have hsum : p * (1 + q * p⁻¹) = p + q := by
    rw [mul_add, mul_one, mul_left_comm, ENNReal.mul_inv_cancel hp0 hp, mul_one]
  rw [exp_neg_sub_cost hq hp, logOneAdd_ofNonneg]
  show number (-ENNReal.log p) + number (-ENNReal.log (1 + q * p⁻¹)) = _
  rw [add_number (by simp [hbot, htop]), ← sub_eq_add_neg,
    ← EReal.neg_add (.inl hbot) (.inl htop), ← log_mul_add, hsum, cost]

theorem costOfEither_cost (p q : ℝ≥0∞) : costOfEither (cost p) (cost q) = cost (p + q) := by
  unfold costOfEither
  split
  · next hp => rw [cost_eq_infinity.1 hp, zero_add]
  split
  · next hq => rw [cost_eq_infinity.1 hq, add_zero]
  next hp hq =>
  rw [cost_eq_infinity] at hp hq
  simp only [lt_cost]
  -- the smaller cost is that of the larger number
  split
  · next hlt =>
    split
    · next htop => rw [cost_eq_negInfinity.1 htop, top_add]
    · next htop => exact cost_sub_logOneAdd hq (mt cost_eq_negInfinity.2 htop) hlt.le
  · next hge =>
    split
    · next htop => rw [cost_eq_negInfinity.1 htop, add_top]
    · next htop =>
      rw [add_comm]
      exact cost_sub_logOneAdd hp (mt cost_eq_negInfinity.2 htop) (not_lt.1 hge)

theorem costOfBoth_cost (p q : ℝ≥0∞) : costOfBoth (cost p) (cost q) = cost (p * q) := by
  unfold costOfBoth
  simp only [Bool.or_eq_true, cost_eq_infinity]
  split
  · next hzero => rw [mul_eq_zero.2 hzero, cost_zero, infinity_eq]
  · next hne =>
    rw [not_or] at hne
    have hp : ENNReal.log p ≠ ⊥ := mt log_eq_bot_iff.1 hne.1
    have hq : ENNReal.log q ≠ ⊥ := mt log_eq_bot_iff.1 hne.2
    show number (-ENNReal.log p) + number (-ENNReal.log q) = _
    rw [add_number (by simp [hp, hq]), ← sub_eq_add_neg, ← EReal.neg_add (.inl hp) (.inr hq),
      ← log_mul_add, cost]

/-- What is left of one after a probability, from its cost. -/
theorem neg_expSubOne_neg_cost {p : ℝ≥0∞} (h : p ≤ 1) :
    -expSubOne (-cost p) = ofNonneg (1 - p) := by
  have htop : p ≠ ∞ := (h.trans_lt one_lt_top).ne
  have hexp : expSubOne (-cost p) = number (p - 1) := by
    show ExtendedNumber.exp (-cost p) + number (-1) = _
    rw [exp_neg_cost]
    exact add_number (by simp [htop, EReal.neg_eq_top_iff, EReal.neg_eq_bot_iff])
  rw [hexp, neg_number, ← one_sub_ofNonneg h]
  show number _ = number 1 + number (-p)
  have hone : (1 : EReal) ≠ ⊤ := EReal.coe_ne_top 1
  rw [add_number (by simp [htop]), EReal.neg_sub (by simp) (.inr hone), add_comm]

theorem star_cost (p : ℝ≥0∞) :
    (negLog : ScoreAlgebra ExtendedReal ExtendedReal).star (cost p) = cost (1 - p)⁻¹ := by
  have hlt : Number.lt 0 (cost p) = true ↔ p < 1 := by
    rw [zero_eq, ← cost_one, lt_cost]
  simp only [negLog, hlt]
  rw [if_neg (by simp [cost])]
  split
  · next hp => rw [neg_expSubOne_neg_cost hp.le, log_ofNonneg, cost, log_inv, neg_neg]
  · next hp =>
    rw [tsub_eq_zero_of_le (not_lt.1 hp), ENNReal.inv_zero, cost_top, negInfinity_eq]

theorem onNumbers_cost (op : ExtendedReal → ExtendedReal → ExtendedReal) (p q : ℝ≥0∞) :
    onNumbers op (cost p) (cost q) = op (cost p) (cost q) := by
  simp [onNumbers, cost]

theorem negLog_member_iff (a : ExtendedReal) :
    (negLog : ScoreAlgebra ExtendedReal ExtendedReal).member a = true ↔ ∃ p, cost p = a := by
  cases a with
  | number x => exact iff_of_true rfl (exists_cost_eq x)
  | nan => exact iff_of_false Bool.false_ne_true nofun

theorem neg_log_ofNonneg (p : ℝ≥0∞) : -ExtendedNumber.log (ofNonneg p) = cost p := by
  rw [log_ofNonneg, neg_number, cost]

/-- Costs are computed in the semiring of the numbers that they are the costs of. -/
theorem represents_negLog :
    (negLog : ScoreAlgebra ExtendedReal ExtendedReal).Represents cost where
  injective := cost_injective
  member_iff := negLog_member_iff
  zero := infinity_eq.trans cost_zero.symm
  one := zero_eq.trans cost_one.symm
  plus p q := (onNumbers_cost _ p q).trans (costOfEither_cost p q)
  times p q := (onNumbers_cost _ p q).trans (costOfBoth_cost p q)
  star p := ⟨(1 - p)⁻¹, star_cost p, inv_one_sub_eq p⟩
  ofProbability hp := by
    obtain ⟨p, -, rfl⟩ := (isProbability_iff _).1 hp
    exact (negLog_member_iff _).2 ⟨p, (neg_log_ofNonneg p).symm⟩
  eq_iff p q := eq_number.trans (neg_inj.trans log_injective.eq_iff)
  not_isNaN _ := rfl

instance : (negLog : ScoreAlgebra ExtendedReal ExtendedReal).IsCommSemiring :=
  represents_negLog.isCommSemiring fun _ _ h => add_eq_zero.1 h

/-! ## Probabilities of costs -/

theorem bijOn_exp_neg : Set.BijOn (fun a : ExtendedReal => ExtendedNumber.exp (-a))
    {a | (negLog : ScoreAlgebra ExtendedReal ExtendedReal).member a = true}
    {a | (probability : ScoreAlgebra ExtendedReal ExtendedReal).member a = true} := by
  refine ⟨fun a ha => ?_, fun a ha b hb heq => ?_, fun a ha => ?_⟩
  · obtain ⟨p, rfl⟩ := (negLog_member_iff a).1 ha
    exact (isNonneg_iff _).2 ⟨p, (exp_neg_cost p).symm⟩
  · obtain ⟨p, rfl⟩ := (negLog_member_iff a).1 ha
    obtain ⟨q, rfl⟩ := (negLog_member_iff b).1 hb
    simp only [exp_neg_cost] at heq
    rw [ofNonneg_injective heq]
  · obtain ⟨p, rfl⟩ := (isNonneg_iff a).1 ha
    exact ⟨cost p, (negLog_member_iff _).2 ⟨p, rfl⟩, exp_neg_cost p⟩

theorem mirrors_exp_neg : (negLog : ScoreAlgebra ExtendedReal ExtendedReal).Mirrors probability
    fun a => ExtendedNumber.exp (-a) where
  bijOn := bijOn_exp_neg
  plus {a b} ha hb := by
    obtain ⟨p, rfl⟩ := (negLog_member_iff a).1 ha
    obtain ⟨q, rfl⟩ := (negLog_member_iff b).1 hb
    rw [represents_negLog.plus, exp_neg_cost, exp_neg_cost, exp_neg_cost,
      represents_probability.plus]
  times {a b} ha hb := by
    obtain ⟨p, rfl⟩ := (negLog_member_iff a).1 ha
    obtain ⟨q, rfl⟩ := (negLog_member_iff b).1 hb
    rw [represents_negLog.times, exp_neg_cost, exp_neg_cost, exp_neg_cost,
      represents_probability.times]
  zero := by rw [represents_negLog.zero, exp_neg_cost, represents_probability.zero]
  one := by rw [represents_negLog.one, exp_neg_cost, represents_probability.one]
  star {a} ha := by
    obtain ⟨p, rfl⟩ := (negLog_member_iff a).1 ha
    rw [star_cost, exp_neg_cost, exp_neg_cost, probability_star_ofNonneg]
  ofProbability hp := by
    obtain ⟨p, -, rfl⟩ := (isProbability_iff _).1 hp
    exact (congrArg (ExtendedNumber.exp ∘ Neg.neg) (neg_log_ofNonneg p)).trans (exp_neg_cost p)
  toProbability _ := rfl
  le_iff {a b} ha hb := by
    obtain ⟨p, rfl⟩ := (negLog_member_iff a).1 ha
    obtain ⟨q, rfl⟩ := (negLog_member_iff b).1 hb
    rw [exp_neg_cost, exp_neg_cost, le_cost, le_ofNonneg]

/-- **Costs are probabilities in disguise.** Over the extended reals every number is a cost, and
`e ^ (-a)` takes the costs one to one to the numbers from zero to infinity, which are the scores of
the algebra of probabilities. There sums and products are those of `ℝ≥0∞`, where zero times infinity
is zero. All operations on costs become those on probabilities, and lower costs become higher
probabilities. What is no number gives none. -/
theorem negLog_mirrors_probability :
    (∀ a : ExtendedReal, negLog.member a = true ↔ ∃ x : EReal, number x = a) ∧
      (∀ a : ExtendedReal, probability.member a = true ↔ ∃ x : ℝ≥0∞, ofNonneg x = a) ∧
      (∀ x y : ℝ≥0∞, probability.plus (ofNonneg x) (ofNonneg y) = ofNonneg (x + y) ∧
        probability.times (ofNonneg x) (ofNonneg y) = ofNonneg (x * y)) ∧
      (negLog : ScoreAlgebra ExtendedReal ExtendedReal).Mirrors probability
        (fun a => ExtendedNumber.exp (-a)) ∧
      (∀ a : ExtendedReal, negLog.plus nan a = nan ∧ negLog.plus a nan = nan ∧
        negLog.times nan a = nan ∧ negLog.times a nan = nan) ∧
      negLog.star (nan : ExtendedReal) = nan ∧ negLog.ofProbability (nan : ExtendedReal) = nan ∧
      negLog.toProbability (nan : ExtendedReal) = nan := by
  refine ⟨fun a => ?_, isNonneg_iff, fun x y => ⟨represents_probability.plus x y,
    represents_probability.times x y⟩, mirrors_exp_neg, fun a => ⟨rfl, ?_, rfl, ?_⟩, rfl,
    rfl, rfl⟩
  · rw [negLog_member_iff]
    constructor
    · rintro ⟨p, rfl⟩
      exact ⟨_, rfl⟩
    · rintro ⟨x, rfl⟩
      exact exists_cost_eq x
  · cases a <;> rfl
  · cases a <;> rfl

end ExtendedReal

end SemiringParsing
