import SemiringParsing.Proofs.Grammar.UnitChains

/-!
# The check of unit cycles decides convergence

A grammar is refused when the elimination of `I - U` meets a pivot that does not exceed the
tolerance. `divergent?_decides` says what either answer means for the chains of unit productions,
with all numbers rational. Only the check of the single rules has to have passed before, which makes
the entries of `U` probabilities.
-/

namespace SemiringParsing.UnitCycle

open Relation

variable {names : List String} {rules : List (Rule ℚ)}

/-- A unit production of positive probability expands one nonterminal to another. -/
def PositiveStep (rules : List (Rule ℚ)) (source target : String) : Prop :=
  ∃ r ∈ rules, isStep r.toProduction source target = true ∧ 0 < r.probability

theorem positiveStep_of_ne_zero (h : GrammarError.inRules? [] rules = none)
    {i j : Fin names.length} (hij : unitWeights names rules i j ≠ 0) :
    PositiveStep rules (names.get i) (names.get j) := by
  have hrule : ∃ r ∈ rules.filter fun r => isStep r.toProduction (names.get i) (names.get j),
      r.probability ≠ 0 := by
    by_contra hzero
    push Not at hzero
    exact hij (List.sum_eq_zero fun p hp => by
      obtain ⟨r, hr, rfl⟩ := List.mem_map.1 hp
      exact hzero r hr)
  obtain ⟨r, hr, hne⟩ := hrule
  obtain ⟨hr, hstep⟩ := List.mem_filter.1 hr
  have hprobability := ((GrammarError.inRules?_eq_none.1 h).1 r hr).2.1
  exact ⟨r, hr, hstep, lt_of_le_of_ne (Rational.isProbability_iff.1 hprobability).1 hne.symm⟩

theorem tolerance_pos : (0 : ℚ) < tolerance := by
  unfold tolerance
  norm_num

theorem tolerance_lt_one : (tolerance : ℚ) < 1 := by
  unfold tolerance
  norm_num

theorem divergent?_eq_none :
    divergent? names rules = none ↔ ∀ k, tolerance < pivot (system names rules) k := by
  rw [divergent?, Option.map_eq_none_iff, failingPivot?_eq_none]

theorem divergent?_eq_some {name : String} :
    divergent? names rules = some name ↔ ∃ k, names.get k = name ∧
      pivot (system names rules) k ≤ tolerance ∧
      ∀ l < k, tolerance < pivot (system names rules) l := by
  simp only [divergent?, Option.map_eq_some_iff, failingPivot?_eq_some]
  exact exists_congr fun _ => and_comm

/-- The pivots are positive exactly when unit productions lower some positive vector. -/
theorem pivots_pos_iff_lowers (h : GrammarError.inRules? [] rules = none) :
    (∀ k, 0 < pivot (system names rules) k) ↔ ∃ v, Lowers (unitWeights names rules) v := by
  rw [pivots_pos_iff (nonposOff_system h)]
  refine exists_congr fun v => and_congr_right fun _ => forall_congr' fun i => ?_
  rw [residue_system, sub_pos]
  simp only [Rat.cast_id]
  rfl

/-- **The check of unit cycles decides convergence.** Let `U` be the table of the probabilities of
unit productions, and let the single rules be free of faults. When the check passes, `U` lowers a
positive vector, so the sum of its powers converges. When a pivot is not positive, there is no
such vector. And when the check names a nonterminal, unit productions of positive probability lead
from it back to it; its pivot is one less the weight of the chains that do so through earlier
nonterminals only. -/
theorem divergent?_decides (rules : List (Rule ℚ)) (h : GrammarError.inRules? [] rules = none) :
    let names := GrammarError.defined rules
    let U := unitWeights names rules
    let t := system names rules
    (divergent? names rules = none →
      (∃ v, Lowers U v) ∧ ∀ i j, Summable fun m : Nat => (((U ^ m) i j : ℚ) : ℝ)) ∧
    ((∃ k, pivot t k ≤ 0) → ¬ ∃ v, Lowers U v) ∧
    ∀ name, divergent? names rules = some name → ∃ k, names.get k = name ∧
      pivot t k ≤ tolerance ∧ (∀ l < k, tolerance < pivot t l) ∧
      TransGen (PositiveStep rules) name name ∧
      HasSum (fun inner : List (Before k) => (innerWeight U k k inner : ℝ)) (1 - pivot t k) := by
  intro names U t
  refine ⟨fun hnone => ?_, ?_, fun name hsome => ?_⟩
  · have hpos : ∀ k, 0 < pivot t k := fun k =>
      tolerance_pos.trans (divergent?_eq_none.1 hnone k)
    obtain ⟨v, hv⟩ := (pivots_pos_iff_lowers h).1 hpos
    exact ⟨⟨v, hv⟩, hv.summable_pow (unitWeights_nonneg h)⟩
  · rintro ⟨k, hk⟩ hlowers
    exact absurd ((pivots_pos_iff_lowers h).2 hlowers k) (not_lt.2 hk)
  · obtain ⟨k, rfl, hk, hbefore⟩ := divergent?_eq_some.1 hsome
    have hpos : ∀ l < k, 0 < pivot t l := fun l hl => tolerance_pos.trans (hbefore l hl)
    have hcycle := transGen_of_pivot_lt_one h hpos (hk.trans_lt tolerance_lt_one)
    exact ⟨k, rfl, hk, hbefore, hcycle.lift names.get fun _ _ => positiveStep_of_ne_zero h,
      hasSum_innerWeight h hpos⟩

/-- Two cycles through `B`, each of weight one half. -/
theorem divergent?_decides_two_cycles :
    let rules : List (Rule ℚ) := [⟨⟨.nonterminal "A", [.nonterminal "B"]⟩, 1⟩,
      ⟨⟨.nonterminal "B", [.nonterminal "A"]⟩, 1 / 2⟩,
      ⟨⟨.nonterminal "B", [.nonterminal "C"]⟩, 1 / 2⟩,
      ⟨⟨.nonterminal "C", [.nonterminal "B"]⟩, 1⟩]
    GrammarError.inRules? [] rules = none ∧
      divergent? (GrammarError.defined rules) rules = some "C" ∧
      TransGen (PositiveStep rules) "C" "C" ∧
      ∃ k, HasSum (fun inner : List (Before k) =>
        (innerWeight (unitWeights (GrammarError.defined rules) rules) k k inner : ℝ)) 1 := by
  intro rules
  have hrules : GrammarError.inRules? [] rules = none := by decide +kernel
  have hdivergent : divergent? (GrammarError.defined rules) rules = some "C" := by decide +kernel
  have hpivot : ∀ k, (GrammarError.defined rules).get k = "C" →
      pivot (system (GrammarError.defined rules) rules) k = 0 := by decide +kernel
  obtain ⟨k, hk, -, -, hcycle, hsum⟩ := (divergent?_decides rules hrules).2.2 "C" hdivergent
  rw [hpivot k hk] at hsum
  exact ⟨hrules, hdivergent, hcycle, k, by simpa using hsum⟩

end SemiringParsing.UnitCycle
