import Mathlib.Algebra.BigOperators.Group.Finset.Basic
import Mathlib.Data.Matrix.Mul
import Mathlib.Algebra.Order.BigOperators.Ring.Finset
import Mathlib.Tactic.Linarith
import Mathlib.Tactic.FieldSimp
import Mathlib.Tactic.Ring
import SemiringParsing.Proofs.Number.Rational

/-!
# Elimination without exchanging rows

The check of unit cycles clears one column after the other below its pivot. Here it is followed
step by step over the rational numbers: `stage` is the table before a step, and the check answers
the first nonterminal whose `pivot` is at most the tolerance (`failingPivot?_eq_some`).

All that a step does is said by `residue_eliminate`, about the products of the rows with a vector,
taken from the column of the step on. Two things follow for a table whose entries beside the
diagonal are not positive, as those of `I - U` are:

* the pivots are positive exactly when some positive vector has positive products with all rows
  (`pivots_pos_iff`);
* rows whose product is zero leave the other products alone (`residue_stage_eq`).
-/

namespace SemiringParsing

open Finset

namespace UnitCycle

variable {n : Nat}

/-! ## The steps -/

/-- The table before the pivot with a number is looked at: the columns of the earlier ones are
cleared. -/
def stage (t : SquareTable ℚ n) (m : Nat) : SquareTable ℚ n :=
  ((List.finRange n).take m).foldl (fun t k => eliminate k t) t

/-- The entry that is looked at in the step of a row. -/
def pivot (t : SquareTable ℚ n) (k : Fin n) : ℚ :=
  (stage t k).entry k k

@[simp] theorem stage_zero (t : SquareTable ℚ n) : stage t 0 = t := by
  simp [stage]

theorem stage_succ (t : SquareTable ℚ n) (k : Fin n) :
    stage t (k + 1) = eliminate k (stage t k) := by
  rw [stage, List.take_add_one, List.foldl_append]
  simp [stage]

/-- The first failing pivot is the first that is at most the tolerance. -/
theorem failingPivot?_finRange (t : SquareTable ℚ n) :
    failingPivot? (List.finRange n) t =
      (List.finRange n).find? fun k => Number.le (pivot t k) tolerance := by
  have hdrop : ∀ m ≤ n, failingPivot? ((List.finRange n).drop m) (stage t m) =
      ((List.finRange n).drop m).find? fun k => Number.le (pivot t k) tolerance := by
    intro m hm
    induction hm using Nat.decreasingInduction with
    | self => rw [List.drop_eq_nil_of_le (by simp), failingPivot?, List.find?_nil]
    | of_succ m hm ih =>
      have hcons : (List.finRange n).drop m = ⟨m, hm⟩ :: (List.finRange n).drop (m + 1) := by
        rw [List.drop_eq_getElem_cons (by simpa using hm)]
        simp
      rw [hcons, failingPivot?, List.find?_cons, ← stage_succ t ⟨m, hm⟩, ih]
      cases h : Number.le (pivot t ⟨m, hm⟩) tolerance <;> simp_all [pivot]
  simpa using hdrop 0 (Nat.zero_le n)

theorem failingPivot?_eq_none {t : SquareTable ℚ n} :
    failingPivot? (List.finRange n) t = none ↔ ∀ k, tolerance < pivot t k := by
  simp [failingPivot?_finRange]

theorem failingPivot?_eq_some {t : SquareTable ℚ n} {k : Fin n} :
    failingPivot? (List.finRange n) t = some k ↔
      pivot t k ≤ tolerance ∧ ∀ l < k, tolerance < pivot t l := by
  rw [failingPivot?_finRange, List.find?_eq_some_iff_getElem, Rational.le_eq_true]
  refine and_congr_right fun _ => ?_
  constructor
  · rintro ⟨i, hi, hget, hbefore⟩ l hl
    rw [List.getElem_finRange, Fin.cast_mk] at hget
    subst hget
    simpa using hbefore l hl
  · intro hbefore
    refine ⟨k, by simp, by simp, fun l hl => ?_⟩
    simpa using hbefore ⟨l, hl.trans k.isLt⟩ hl

/-- A step takes a multiple of the pivot's row from each row below. -/
theorem entry_eliminate {t : SquareTable ℚ n} {i j k : Fin n} :
    (eliminate k t).entry i j =
      if k < i ∧ k ≤ j then t.entry i j - t.entry i k / t.entry k k * t.entry k j
      else t.entry i j := by
  rw [eliminate, SquareTable.entry_ofRows]
  dsimp only
  by_cases hki : k < i
  · by_cases hfactor : t.entry i k / t.entry k k = 0
    · have hskip : (decide (i ≤ k) || Number.eq (t.entry i k / t.entry k k) 0) = true := by
        rw [Bool.or_eq_true, Rational.eq_eq_true]
        exact .inr hfactor
      rw [if_pos hskip, hfactor, zero_mul, sub_zero, ite_self]
      rfl
    · have hskip : ¬ (decide (i ≤ k) || Number.eq (t.entry i k / t.entry k k) 0) = true := by
        rw [Bool.or_eq_true, Rational.eq_eq_true, decide_eq_true_iff, not_or, not_le]
        exact ⟨hki, hfactor⟩
      rw [if_neg hskip, SquareTable.get_ofFn]
      by_cases hkj : k ≤ j
      · rw [if_neg (not_lt.2 hkj), if_pos ⟨hki, hkj⟩]
      · rw [if_pos (not_le.1 hkj), if_neg fun h => hkj h.2]
  · rw [if_pos (by simp [not_lt.1 hki]), if_neg fun h => hki h.1]
    rfl

/-! ## What a step does to the rows -/

section Residue

variable {K : Type} [Field K] [CharZero K] {t : SquareTable ℚ n} {y : Fin n → K} {i k : Fin n}

/-- The product of a row, from a column on, with a vector. -/
def residue (t : SquareTable ℚ n) (m : Nat) (y : Fin n → K) (i : Fin n) : K :=
  ∑ j with m ≤ j.val, (t.entry i j : K) * y j

omit [CharZero K] in
theorem residue_congr {m : Nat} {y' : Fin n → K} (h : ∀ j : Fin n, m ≤ j.val → y j = y' j) :
    residue t m y i = residue t m y' i :=
  sum_congr rfl fun j hj => by rw [h j (mem_filter.1 hj).2]

omit [CharZero K] in
theorem residue_eq_add (t : SquareTable ℚ n) (k : Fin n) (y : Fin n → K) (i : Fin n) :
    residue t k y i = t.entry i k * y k + residue t (k + 1) y i := by
  have hcolumns : ({j | k.val ≤ j.val} : Finset (Fin n)) =
      insert k ({j | k.val + 1 ≤ j.val} : Finset (Fin n)) := by
    ext j
    simp only [mem_filter, mem_univ, true_and, mem_insert]
    omega
  rw [residue, hcolumns, sum_insert (by simp), residue]

/-- In a cleared row the product is what it was, less the multiple of the pivot's row. -/
theorem residue_eliminate (hk : t.entry k k ≠ 0) (hki : k < i) :
    residue (eliminate k t) (k + 1) y i =
      residue t k y i - (t.entry i k / t.entry k k : ℚ) * residue t k y k := by
  have hrow : residue (eliminate k t) (k + 1) y i =
      residue t (k + 1) y i - (t.entry i k / t.entry k k : ℚ) * residue t (k + 1) y k := by
    rw [residue, residue, residue, mul_sum, ← sum_sub_distrib]
    refine sum_congr rfl fun j hj => ?_
    rw [mem_filter] at hj
    rw [entry_eliminate, if_pos ⟨hki, by omega⟩]
    push_cast
    ring
  have hfactor : ((t.entry i k / t.entry k k : ℚ) : K) * t.entry k k = t.entry i k := by
    rw [← Rat.cast_mul, div_mul_cancel₀ _ hk]
  rw [hrow, residue_eq_add t k y i, residue_eq_add t k y k, mul_add, ← mul_assoc, hfactor]
  ring

end Residue

/-- Rows whose product with a vector is zero leave the products of the others alone. -/
theorem residue_stage_eq {K : Type} [Field K] [CharZero K] {t : SquareTable ℚ n} {y : Fin n → K}
    {m : Nat} (hm : m ≤ n) (hzero : ∀ l : Fin n, l.val < m → residue t 0 y l = 0)
    (hpivot : ∀ l : Fin n, l.val < m → pivot t l ≠ 0) {i : Fin n} (hi : m ≤ i.val) :
    residue (stage t m) m y i = residue t 0 y i := by
  induction m generalizing i with
  | zero => rw [stage_zero]
  | succ m ih =>
    let k : Fin n := ⟨m, hm⟩
    have hprevious : ∀ {i : Fin n}, m ≤ i.val → residue (stage t m) m y i = residue t 0 y i :=
      ih (by omega) (fun l hl => hzero l (by omega)) fun l hl => hpivot l (by omega)
    have hk : residue t 0 y k = 0 := hzero k (Nat.lt_succ_self m)
    rw [stage_succ t k, residue_eliminate (hpivot k (Nat.lt_succ_self m)) hi,
      hprevious (i := k) le_rfl, hk, mul_zero, sub_zero, hprevious (by omega)]

/-! ## Signs -/

/-- Beside the diagonal, no entry from a row and a column on is positive. -/
def NonposOff (t : SquareTable ℚ n) (m : Nat) : Prop :=
  ∀ i j : Fin n, m ≤ i.val → m ≤ j.val → i ≠ j → t.entry i j ≤ 0

section Signs

variable {t : SquareTable ℚ n} {k : Fin n} {m : Nat}

theorem NonposOff.factor_nonpos (h : NonposOff t k) (hk : 0 < t.entry k k) {i : Fin n}
    (hki : k < i) : t.entry i k / t.entry k k ≤ 0 :=
  div_nonpos_of_nonpos_of_nonneg (h i k hki.le le_rfl hki.ne') hk.le

theorem NonposOff.eliminate (h : NonposOff t k) (hk : 0 < t.entry k k) :
    NonposOff (eliminate k t) (k + 1) := by
  intro i j hi hj hij
  rw [entry_eliminate, if_pos ⟨hi, by omega⟩]
  have hfactor := h.factor_nonpos hk hi
  have hentry : t.entry k j ≤ 0 := h k j le_rfl (by omega) (by omega)
  have := mul_nonneg_of_nonpos_of_nonpos hfactor hentry
  linarith [h i j (by omega) (by omega) hij]

/-- As long as the pivots are positive no entry beside the diagonal becomes positive. -/
theorem NonposOff.stage (h : NonposOff t 0) (hm : m ≤ n)
    (hpos : ∀ l : Fin n, l.val < m → 0 < pivot t l) : NonposOff (stage t m) m := by
  induction m with
  | zero => simpa using h
  | succ m ih =>
    have hstage := ih (by omega) fun l hl => hpos l (by omega)
    rw [stage_succ t ⟨m, hm⟩]
    exact hstage.eliminate (hpos ⟨m, hm⟩ (by simp))

/-- The products of the lower rows with a positive vector are at most what the diagonal gives. -/
theorem NonposOff.residue_succ_nonpos (h : NonposOff t k) {v : Fin n → ℚ}
    (hv : ∀ j, k < j → 0 ≤ v j) : residue t (k + 1) v k ≤ 0 := by
  refine sum_nonpos fun j hj => ?_
  rw [mem_filter] at hj
  have hkj : k < j := by omega
  have hentry := h k j le_rfl hkj.le hkj.ne
  rw [Rat.cast_id]
  exact mul_nonpos_of_nonpos_of_nonneg hentry (hv j hkj)

end Signs

/-! ## The criterion -/

section Criterion

variable {t : SquareTable ℚ n} {m : Nat}

/-- Elimination keeps the products of the rows with a positive vector positive, as long as the
pivots are. -/
theorem residue_stage_pos (h : NonposOff t 0) {v : Fin n → ℚ}
    (hresidue : ∀ i, 0 < residue t 0 v i) (hm : m ≤ n)
    (hpos : ∀ l : Fin n, l.val < m → 0 < pivot t l) {i : Fin n} (hi : m ≤ i.val) :
    0 < residue (stage t m) m v i := by
  induction m generalizing i with
  | zero => simpa using hresidue i
  | succ m ih =>
    let k : Fin n := ⟨m, hm⟩
    have hpos' : ∀ l : Fin n, l.val < m → 0 < pivot t l := fun l hl => hpos l (by omega)
    have hk : 0 < (stage t m).entry k k := hpos k (by simp [k])
    have hki : k < i := hi
    have hfactor := (h.stage (by omega) hpos').factor_nonpos (k := k) hk hki
    have hrow : 0 < residue (stage t m) m v i := ih (by omega) hpos' hki.le
    have hpivotRow : 0 < residue (stage t m) m v k := ih (by omega) hpos' le_rfl
    rw [stage_succ t k, residue_eliminate hk.ne' hki, Rat.cast_id]
    have := mul_nonpos_of_nonpos_of_nonneg hfactor hpivotRow.le
    linarith

/-- A positive vector with positive products makes all pivots positive. -/
theorem pivot_pos (h : NonposOff t 0) {v : Fin n → ℚ} (hv : ∀ i, 0 < v i)
    (hresidue : ∀ i, 0 < residue t 0 v i) (k : Fin n) : 0 < pivot t k := by
  induction hk : k.val using Nat.strong_induction_on generalizing k with
  | _ m ih =>
    subst hk
    have hpos : ∀ l : Fin n, l.val < k.val → 0 < pivot t l := fun l hl => ih l hl l rfl
    have hrow := residue_stage_pos h hresidue k.isLt.le hpos (i := k) le_rfl
    have hrest : residue (stage t k) (k + 1) v k ≤ 0 :=
      (h.stage k.isLt.le hpos).residue_succ_nonpos fun j _ => (hv j).le
    rw [residue_eq_add, Rat.cast_id] at hrow
    have hproduct : 0 < (stage t k).entry k k * v k := by linarith
    exact pos_of_mul_pos_left hproduct (hv k).le

/-- The entry of the pivot's row that gives it a product, when the entries after it are given. -/
theorem exists_extend {k : Fin n} (hk : 0 < t.entry k k) {v : Fin n → ℚ}
    (hrest : residue t (k + 1) v k ≤ 0) {c : ℚ} (hc : 0 < c) :
    ∃ w : Fin n → ℚ, (∀ j, j ≠ k → w j = v j) ∧ 0 < w k ∧ residue t k w k = c := by
  let first := (c - residue t (k + 1) v k) / t.entry k k
  have hother : ∀ j, j ≠ k → Function.update v k first j = v j :=
    fun j hj => Function.update_of_ne hj _ _
  refine ⟨Function.update v k first, hother, ?_, ?_⟩
  · rw [Function.update_self]
    exact div_pos (by linarith) hk
  · rw [residue_eq_add, residue_congr fun j hj => hother j (Fin.ne_of_gt hj), Rat.cast_id,
      Function.update_self, mul_div_cancel₀ _ hk.ne']
    ring

/-- Where the first pivots are positive, the first rows have any positive products with a vector
that is positive there and zero after. -/
theorem exists_residue_eq (h : NonposOff t 0) {k : Nat} (hk : k ≤ n)
    (hpos : ∀ l : Fin n, l.val < k → 0 < pivot t l) (hm : m ≤ k) (c : Fin n → ℚ)
    (hc : ∀ i : Fin n, m ≤ i.val → i.val < k → 0 < c i) :
    ∃ v : Fin n → ℚ, (∀ i : Fin n, m ≤ i.val → i.val < k → 0 < v i) ∧
      (∀ i : Fin n, k ≤ i.val → v i = 0) ∧
      ∀ i : Fin n, m ≤ i.val → i.val < k → residue (stage t m) m v i = c i := by
  induction hm using Nat.decreasingInduction generalizing c with
  | self => exact ⟨0, by omega, fun _ _ => rfl, by omega⟩
  | of_succ m hm ih =>
    let l : Fin n := ⟨m, by omega⟩
    have hpos' : ∀ i : Fin n, i.val < m → 0 < pivot t i := fun i hi => hpos i (by omega)
    have hnonpos : NonposOff (stage t m) l := h.stage (by omega) hpos'
    have hl : 0 < (stage t m).entry l l := hpos l hm
    have hcl : 0 < c l := hc l le_rfl hm
    -- The cleared rows are solved first, then the pivot's row gives the entry before theirs.
    obtain ⟨v, hv, hzero, hcleared⟩ :=
      ih (fun i => c i - (stage t m).entry i l / (stage t m).entry l l * c l) fun i hi hik => by
        have hfactor := hnonpos.factor_nonpos hl (i := i) hi
        have hci := hc i (by omega) hik
        have := mul_nonpos_of_nonpos_of_nonneg hfactor hcl.le
        linarith
    have hrest : residue (stage t m) (m + 1) v l ≤ 0 := by
      refine hnonpos.residue_succ_nonpos fun j hj => ?_
      rcases Nat.lt_or_ge j k with hjk | hjk
      · exact (hv j hj hjk).le
      · exact (hzero j hjk).ge
    obtain ⟨w, hw, hwl, hpivotRow⟩ := exists_extend hl hrest hcl
    refine ⟨w, fun i hi hik => ?_, fun i hi => ?_, fun i hi hik => ?_⟩
    · rcases Nat.eq_or_lt_of_le hi with hi | hi
      · obtain rfl : l = i := Fin.ext hi
        exact hwl
      · rw [hw i (Fin.ne_of_gt hi)]
        exact hv i hi hik
    · have hli : l < i := Nat.lt_of_lt_of_le hm hi
      rw [hw i hli.ne', hzero i hi]
    · rcases Nat.eq_or_lt_of_le hi with hi | hi
      · obtain rfl : l = i := Fin.ext hi
        exact hpivotRow
      · have hrow := hcleared i hi hik
        have hsame : residue (stage t (m + 1)) (m + 1) v i =
            residue (stage t (m + 1)) (m + 1) w i :=
          residue_congr fun j hj => (hw j (Fin.ne_of_gt hj)).symm
        rw [hsame, stage_succ t l, residue_eliminate hl.ne' hi, hpivotRow, Rat.cast_id] at hrow
        linarith

/-- **Elimination decides whether a positive vector has positive products.** The pivots are all
positive exactly when there is one. -/
theorem pivots_pos_iff (h : NonposOff t 0) :
    (∀ k, 0 < pivot t k) ↔ ∃ v : Fin n → ℚ, (∀ i, 0 < v i) ∧ ∀ i, 0 < residue t 0 v i := by
  constructor
  · intro hpos
    obtain ⟨v, hv, -, hresidue⟩ := exists_residue_eq h le_rfl (fun l _ => hpos l) (Nat.zero_le n)
      (fun _ => 1) fun _ _ _ => one_pos
    refine ⟨v, fun i => hv i (Nat.zero_le _) i.isLt, fun i => ?_⟩
    have hi := hresidue i (Nat.zero_le _) i.isLt
    rw [stage_zero] at hi
    rw [hi]
    exact one_pos
  · rintro ⟨v, hv, hresidue⟩ k
    exact pivot_pos h hv hresidue k

end Criterion

end UnitCycle

end SemiringParsing
