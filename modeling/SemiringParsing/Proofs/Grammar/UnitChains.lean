import Mathlib.Data.Matrix.Basic
import Mathlib.Data.Rat.BigOperators
import Mathlib.Topology.Algebra.InfiniteSum.Real
import SemiringParsing.Proofs.Grammar.Accepted
import SemiringParsing.Proofs.Grammar.Elimination

/-!
# Chains of unit productions

With `U` the table of the probabilities of unit productions (`unitWeights`), a chain from one
nonterminal to another weighs the product of its entries (`chainWeight`). This module adds up chains
in two ways.

* Chains that lead back to a nonterminal through earlier ones: as long as the earlier pivots are
  positive their weights have a sum, which is what the pivot lacks of one (`hasSum_innerWeight`).
  The sums over chains from the earlier nonterminals solve the first rows of `I - U`, and
  elimination leaves the last.
* All chains of some length, which are the entries of a power of `U`: they have a sum when `U`
  lowers some positive vector (`Lowers.summable_pow`).
-/

namespace SemiringParsing.UnitCycle

open Finset Filter Topology

variable {names : List String} {rules : List (Rule ℚ)} {n : Nat}

/-! ## The table of unit production probabilities -/

/-- The probability with which unit productions expand one nonterminal to another. -/
def unitWeights (names : List String) (rules : List (Rule ℚ)) :
    Matrix (Fin names.length) (Fin names.length) ℚ := fun i j =>
  ((rules.filter fun r => isStep r.toProduction (names.get i) (names.get j)).map
    Rule.probability).sum

theorem foldl_sub_probability (a : ℚ) (rules : List (Rule ℚ)) :
    rules.foldl (fun entry r => entry - r.probability) a =
      a - (rules.map Rule.probability).sum := by
  induction rules generalizing a with
  | nil => simp
  | cons r rules ih =>
    rw [List.foldl_cons, ih, List.map_cons, List.sum_cons]
    ring

theorem entry_system (names : List String) (rules : List (Rule ℚ)) (i j : Fin names.length) :
    (system names rules).entry i j = (if i = j then 1 else 0) - unitWeights names rules i j := by
  rw [system, SquareTable.entry_ofFn, unitWeights]
  exact foldl_sub_probability _ _

theorem unitWeights_nonneg (h : GrammarError.inRules? [] rules = none)
    (i j : Fin names.length) : 0 ≤ unitWeights names rules i j := by
  refine List.sum_nonneg fun p hp => ?_
  obtain ⟨r, hr, rfl⟩ := List.mem_map.1 hp
  have hrule := (GrammarError.inRules?_eq_none.1 h).1 r (List.mem_filter.1 hr).1
  exact (Rational.isProbability_iff.1 hrule.2.1).1

theorem nonposOff_system (h : GrammarError.inRules? [] rules = none) :
    NonposOff (system names rules) 0 := by
  intro i j _ _ hij
  rw [entry_system, if_neg hij, zero_sub]
  exact neg_nonpos.2 (unitWeights_nonneg h i j)

theorem residue_system {K : Type} [Field K] [CharZero K] (y : Fin names.length → K)
    (i : Fin names.length) : residue (system names rules) 0 y i =
      y i - ∑ j, (unitWeights names rules i j : K) * y j := by
  have hone : ∀ j : Fin names.length, ((if i = j then 1 else 0 : ℚ) : K) = if i = j then 1 else 0 :=
    fun j => by split <;> simp
  simp [residue, entry_system, sub_mul, sum_sub_distrib, hone]

/-! ## Chains through earlier nonterminals -/

section Chains

variable {U : Matrix (Fin n) (Fin n) ℚ} {k : Fin n}

/-- The weight of the chain from a nonterminal to a target through the given ones. -/
def chainWeight (U : Matrix (Fin n) (Fin n) ℚ) (target : Fin n) : Fin n → List (Fin n) → ℚ
  | source, [] => U source target
  | source, next :: inner => U source next * chainWeight U target next inner

theorem chainWeight_nonneg (hU : ∀ i j, 0 ≤ U i j) (i : Fin n) (inner : List (Fin n)) :
    0 ≤ chainWeight U k i inner := by
  induction inner generalizing i with
  | nil => exact hU i k
  | cons next inner ih => exact mul_nonneg (hU i next) (ih next)

/-- A chain that weighs something leads along entries that are not zero. -/
theorem transGen_of_chainWeight_ne_zero {i : Fin n} {inner : List (Fin n)}
    (h : chainWeight U k i inner ≠ 0) : Relation.TransGen (fun i j => U i j ≠ 0) i k := by
  induction inner generalizing i with
  | nil => exact .single h
  | cons next inner ih =>
    obtain ⟨hfirst, hrest⟩ := mul_ne_zero_iff.1 h
    exact .head hfirst (ih hrest)

/-- The nonterminals before one. -/
abbrev Before (k : Fin n) : Type := {l : Fin n // l < k}

/-- The weight of a chain through nonterminals before the target. -/
def innerWeight (U : Matrix (Fin n) (Fin n) ℚ) (k i : Fin n) (inner : List (Before k)) : ℚ :=
  chainWeight U k i (inner.map Subtype.val)

/-- A list from its head and its tail. -/
def prepend : Before k × List (Before k) ↪ List (Before k) where
  toFun p := p.1 :: p.2
  inj' p q h := by simpa [Prod.ext_iff] using h

@[simp] theorem prepend_apply (p : Before k × List (Before k)) : prepend p = p.1 :: p.2 := rfl

/-- The lists of at most some length of nonterminals before one. -/
def listsUpTo (k : Fin n) : Nat → Finset (List (Before k))
  | 0 => {[]}
  | N + 1 => cons [] ((univ ×ˢ listsUpTo k N).map prepend) (by simp)

theorem mem_listsUpTo {N : Nat} {inner : List (Before k)} :
    inner ∈ listsUpTo k N ↔ inner.length ≤ N := by
  induction N generalizing inner with
  | zero => simp [listsUpTo]
  | succ N ih =>
    cases inner with
    | nil => simp [listsUpTo]
    | cons l inner => simp [listsUpTo, ih]

/-- Chains of one more step begin with a step. -/
theorem sum_listsUpTo_succ (U : Matrix (Fin n) (Fin n) ℚ) (k i : Fin n) (N : Nat) :
    ∑ inner ∈ listsUpTo k (N + 1), innerWeight U k i inner =
      U i k + ∑ l : Before k, U i l * ∑ inner ∈ listsUpTo k N, innerWeight U k l inner := by
  rw [listsUpTo, sum_cons, sum_map, sum_product]
  simp only [mul_sum]
  rfl

theorem innerWeight_nonneg (hU : ∀ i j, 0 ≤ U i j) (i : Fin n) (inner : List (Before k)) :
    0 ≤ innerWeight U k i inner :=
  chainWeight_nonneg hU i _

theorem sum_eq_add_sum_before {K : Type} [AddCommMonoid K] {f : Fin n → K}
    (hf : ∀ j, k < j → f j = 0) : ∑ j, f j = f k + ∑ l : Before k, f l := by
  have hsplit : ∑ j ∈ ({j | j ≤ k} : Finset (Fin n)), f j = ∑ j, f j :=
    sum_subset (subset_univ _) fun j _ hj => hf j (by simpa using hj)
  have hinsert : ({j | j ≤ k} : Finset (Fin n)) = insert k ({j | j < k} : Finset (Fin n)) := by
    ext j
    simp [le_iff_eq_or_lt]
  rw [← hsplit, hinsert, sum_insert (by simp), sum_subtype _ (p := fun j => j < k) (by simp)]

/-- A vector of the earlier nonterminals that exceeds its product with their table by one bounds
the weight of the chains through them. -/
theorem sum_listsUpTo_le (hU : ∀ i j, 0 ≤ U i j) {v : Before k → ℚ} (hv : ∀ l, 0 ≤ v l)
    (hsolves : ∀ l, v l = 1 + ∑ l' : Before k, U l l' * v l') (N : Nat) (l : Before k) :
    ∑ inner ∈ listsUpTo k N, innerWeight U k l inner ≤ (∑ l' : Before k, U l' k) * v l := by
  have hlast : ∀ l : Before k, U l k ≤ ∑ l' : Before k, U l' k := fun l =>
    single_le_sum (f := fun l' : Before k => U l' k) (fun l' _ => hU l' k) (mem_univ l)
  induction N generalizing l with
  | zero =>
    have hrest : 0 ≤ ∑ l' : Before k, U l l' * v l' :=
      sum_nonneg fun l' _ => mul_nonneg (hU l l') (hv l')
    have hone : 1 ≤ v l := by linarith [hsolves l]
    calc ∑ inner ∈ listsUpTo k 0, innerWeight U k l inner = U l k := sum_singleton _ _
      _ ≤ ∑ l' : Before k, U l' k := hlast l
      _ ≤ (∑ l' : Before k, U l' k) * v l :=
        le_mul_of_one_le_right ((hU l k).trans (hlast l)) hone
  | succ N ih =>
    calc ∑ inner ∈ listsUpTo k (N + 1), innerWeight U k l inner
        = U l k + ∑ l' : Before k, U l l' * ∑ inner ∈ listsUpTo k N, innerWeight U k l' inner :=
          sum_listsUpTo_succ U k l N
      _ ≤ (∑ l' : Before k, U l' k) +
            ∑ l' : Before k, U l l' * ((∑ l' : Before k, U l' k) * v l') :=
          add_le_add (hlast l) (sum_le_sum fun l' _ => mul_le_mul_of_nonneg_left (ih l') (hU l l'))
      _ = (∑ l' : Before k, U l' k) * (1 + ∑ l' : Before k, U l l' * v l') := by
          rw [mul_add, mul_one, mul_sum]
          simp only [mul_left_comm]
      _ = (∑ l' : Before k, U l' k) * v l := by rw [← hsolves l]

/-- When the chains from the earlier nonterminals have a bound, those from all have a sum. -/
theorem summable_innerWeight (hU : ∀ i j, 0 ≤ U i j) {bound : Before k → ℚ}
    (hbound : ∀ (N : Nat) (l : Before k),
      ∑ inner ∈ listsUpTo k N, innerWeight U k l inner ≤ bound l) (i : Fin n) :
    Summable fun inner : List (Before k) => (innerWeight U k i inner : ℝ) := by
  have hle : ∀ N, ∑ inner ∈ listsUpTo k (N + 1), innerWeight U k i inner ≤
      U i k + ∑ l : Before k, U i l * bound l := fun N => by
    rw [sum_listsUpTo_succ]
    exact add_le_add le_rfl
      (sum_le_sum fun l _ => mul_le_mul_of_nonneg_left (hbound N l) (hU i l))
  refine summable_of_sum_le (c := ((U i k + ∑ l : Before k, U i l * bound l : ℚ) : ℝ))
    (fun inner => Rat.cast_nonneg.2 (innerWeight_nonneg hU i inner)) fun inners => ?_
  have hsubset : inners ⊆ listsUpTo k (inners.sup List.length + 1) := fun inner hinner =>
    mem_listsUpTo.2 ((le_sup (f := List.length) hinner).trans (Nat.le_succ _))
  have hsum := sum_le_sum_of_subset_of_nonneg hsubset
    fun inner _ _ => innerWeight_nonneg (U := U) hU i inner
  rw [← Rat.cast_sum]
  exact Rat.cast_le.2 (hsum.trans (hle _))

/-- Chains are a last step, or a first step and a chain. -/
theorem tsum_innerWeight (h : ∀ i : Fin n,
      Summable fun inner : List (Before k) => (innerWeight U k i inner : ℝ)) (i : Fin n) :
    tsum (fun inner => (innerWeight U k i inner : ℝ)) =
      U i k + ∑ l : Before k, (U i l : ℝ) * tsum fun inner => (innerWeight U k l inner : ℝ) := by
  have hlists : Tendsto (listsUpTo k) atTop atTop := by
    refine tendsto_atTop_finset_of_monotone (fun M N hMN inner hinner => ?_) fun inner => ?_
    · exact mem_listsUpTo.2 ((mem_listsUpTo.1 hinner).trans hMN)
    · exact ⟨inner.length, mem_listsUpTo.2 le_rfl⟩
  have hlimit : ∀ i : Fin n, Tendsto
      (fun N => ∑ inner ∈ listsUpTo k N, (innerWeight U k i inner : ℝ)) atTop
      (𝓝 (tsum fun inner => (innerWeight U k i inner : ℝ))) := fun i => (h i).hasSum.comp hlists
  refine tendsto_nhds_unique ((hlimit i).comp (tendsto_add_atTop_nat 1)) ?_
  have hstep : ∀ N, ∑ inner ∈ listsUpTo k (N + 1), (innerWeight U k i inner : ℝ) =
      U i k + ∑ l : Before k,
        (U i l : ℝ) * ∑ inner ∈ listsUpTo k N, (innerWeight U k l inner : ℝ) := fun N => by
    exact_mod_cast congrArg (Rat.cast : ℚ → ℝ) (sum_listsUpTo_succ U k i N)
  simp only [Function.comp_def, hstep]
  exact tendsto_const_nhds.add (tendsto_finsetSum _ fun l _ => (hlimit l).const_mul _)

end Chains

/-! ## What a pivot is -/

section Pivot

variable {k : Fin names.length}

/-- Where the earlier pivots are positive, the chains through earlier nonterminals have a sum. -/
theorem summable_of_pivot_pos (h : GrammarError.inRules? [] rules = none)
    (hpos : ∀ l < k, 0 < pivot (system names rules) l) (i : Fin names.length) :
    Summable fun inner => (innerWeight (unitWeights names rules) k i inner : ℝ) := by
  obtain ⟨v, hv, hzero, hresidue⟩ := exists_residue_eq (nonposOff_system h) k.isLt.le hpos
    (Nat.zero_le k) (fun _ => 1) fun _ _ _ => one_pos
  have hsolves : ∀ l : Before k,
      v l = 1 + ∑ l' : Before k, unitWeights names rules l l' * v l' := fun l => by
    have hl := hresidue l (Nat.zero_le _) l.2
    have hsplit := sum_eq_add_sum_before (k := k) (f := fun j => unitWeights names rules l j * v j)
      fun j hj => by simp [hzero j hj.le]
    rw [stage_zero, residue_system] at hl
    simp only [Rat.cast_id] at hl
    rw [hsplit, hzero k le_rfl, mul_zero, zero_add] at hl
    linarith
  exact summable_innerWeight (unitWeights_nonneg h)
    (sum_listsUpTo_le (unitWeights_nonneg h) (fun l => (hv l (Nat.zero_le _) l.2).le) hsolves) i

/-- The pivot of a nonterminal is one less the weight of the chains that lead back to it through
earlier ones. -/
theorem hasSum_innerWeight (h : GrammarError.inRules? [] rules = none)
    (hpos : ∀ l < k, 0 < pivot (system names rules) l) :
    HasSum (fun inner => (innerWeight (unitWeights names rules) k k inner : ℝ))
      (1 - pivot (system names rules) k) := by
  let U := unitWeights names rules
  let total : Fin names.length → ℝ := fun i => tsum fun inner => (innerWeight U k i inner : ℝ)
  -- Elimination acts on the vector that has these weights before `k` and one at `k`.
  let y : Fin names.length → ℝ := fun j => if j < k then total j else if j = k then 1 else 0
  have hsummable := summable_of_pivot_pos h hpos
  have hproduct : ∀ i, ∑ j, (U i j : ℝ) * y j = total i := fun i => by
    have hsplit := sum_eq_add_sum_before (k := k) (f := fun j => (U i j : ℝ) * y j)
      fun j hj => by simp [y, hj.not_gt, hj.ne']
    have hbefore : ∀ l : Before k, y l = total l := fun l => if_pos l.2
    have hk : y k = 1 := by simp [y]
    simp only [hsplit, hbefore, hk, mul_one]
    exact (tsum_innerWeight hsummable i).symm
  have hresidue : ∀ i, residue (system names rules) 0 y i = y i - total i := fun i => by
    rw [residue_system, ← hproduct i]
  have hpivot : (pivot (system names rules) k : ℝ) = 1 - total k := by
    have hstage := residue_stage_eq (t := system names rules) (y := y) k.isLt.le
      (fun l hl => by rw [hresidue, sub_eq_zero]; exact if_pos hl) (fun l hl => (hpos l hl).ne')
      (i := k) le_rfl
    have hrest : residue (stage (system names rules) k) (k + 1) y k = 0 :=
      sum_eq_zero fun j hj => by
        have hkj : k < j := (mem_filter.1 hj).2
        simp [y, hkj.not_gt, hkj.ne']
    have hk : y k = 1 := by simp [y]
    rw [residue_eq_add, hrest, hresidue, hk, mul_one, add_zero] at hstage
    exact hstage
  rw [hpivot, sub_sub_cancel]
  exact (hsummable k).hasSum

/-- A nonterminal whose pivot is less than one is on a cycle of unit productions. -/
theorem transGen_of_pivot_lt_one (h : GrammarError.inRules? [] rules = none)
    (hpos : ∀ l < k, 0 < pivot (system names rules) l) (hk : pivot (system names rules) k < 1) :
    Relation.TransGen (fun i j => unitWeights names rules i j ≠ 0) k k := by
  have hsum := hasSum_innerWeight h hpos
  have hne : ∃ inner : List (Before k), innerWeight (unitWeights names rules) k k inner ≠ 0 := by
    by_contra hzero
    have hall : ∀ inner, (innerWeight (unitWeights names rules) k k inner : ℝ) = 0 := by
      intro inner
      exact_mod_cast not_not.1 fun hne => hzero ⟨inner, hne⟩
    simp only [hall] at hsum
    have hone := hasSum_zero.unique hsum
    have : (pivot (system names rules) k : ℝ) < 1 := by exact_mod_cast hk
    linarith
  obtain ⟨inner, hinner⟩ := hne
  exact transGen_of_chainWeight_ne_zero hinner

end Pivot

/-! ## All chains -/

/-- A table lowers all entries of a positive vector. -/
def Lowers (U : Matrix (Fin n) (Fin n) ℚ) (v : Fin n → ℚ) : Prop :=
  (∀ i, 0 < v i) ∧ ∀ i, U.mulVec v i < v i

/-- A table that lowers a positive vector has a sum of powers. -/
theorem Lowers.summable_pow {U : Matrix (Fin n) (Fin n) ℚ} {v : Fin n → ℚ} (h : Lowers U v)
    (hU : ∀ i j, 0 ≤ U i j) (i j : Fin n) :
    Summable fun m : Nat => (((U ^ m) i j : ℚ) : ℝ) := by
  obtain ⟨hv, hlower⟩ := h
  have hpow : ∀ m i j, 0 ≤ (U ^ m) i j := fun m => by
    induction m with
    | zero => exact fun i j => by simp [Matrix.one_apply]; split <;> norm_num
    | succ m ih =>
      intro i j
      rw [pow_succ, Matrix.mul_apply]
      exact sum_nonneg fun l _ => mul_nonneg (ih i l) (hU l j)
  have hpartial : ∀ N, ∑ m ∈ range N, (U ^ m).mulVec (v - U.mulVec v) = v - (U ^ N).mulVec v := by
    intro N
    induction N with
    | zero => simp
    | succ N ih =>
      rw [sum_range_succ, ih, Matrix.mulVec_sub, Matrix.mulVec_mulVec, ← pow_succ]
      abel
  have hgap : ∀ j, 0 < (v - U.mulVec v) j := fun j => sub_pos.2 (hlower j)
  have hle : ∀ N, ∑ m ∈ range N, (U ^ m) i j ≤ v i / (v - U.mulVec v) j := fun N => by
    rw [le_div_iff₀ (hgap j), sum_mul]
    calc ∑ m ∈ range N, (U ^ m) i j * (v - U.mulVec v) j
        ≤ ∑ m ∈ range N, ((U ^ m).mulVec (v - U.mulVec v)) i := sum_le_sum fun m _ =>
          single_le_sum (f := fun l => (U ^ m) i l * (v - U.mulVec v) l)
            (fun l _ => mul_nonneg (hpow m i l) (hgap l).le) (mem_univ j)
      _ = v i - ((U ^ N).mulVec v) i := by
          rw [← Finset.sum_apply, hpartial N, Pi.sub_apply]
      _ ≤ v i := sub_le_self _ (sum_nonneg fun l _ => mul_nonneg (hpow N i l) (hv l).le)
  refine summable_of_sum_range_le (c := ((v i / (v - U.mulVec v) j : ℚ) : ℝ))
    (fun m => Rat.cast_nonneg.2 (hpow m i j)) fun N => ?_
  rw [← Rat.cast_sum]
  exact Rat.cast_le.2 (hle N)

end SemiringParsing.UnitCycle
