import Mathlib.Data.Finset.Card
import Mathlib.Logic.Relation
import SemiringParsing.Proofs.Grammar.Accepted

/-!
# Grammars without cycles of unit productions

When no chain of unit productions leads back to where it began, nonterminals have a rank that every
unit production lowers (`Grammar.unitRank_lt`): the number of nonterminals that chains lead to.

A tree over some tokens has trees over fewer tokens below, or one tree over the same tokens below a
unit production. So what is to be shown of all nonterminals and all stretches of tokens can be shown
by induction on the length of the stretch and, within, on the rank (`Grammar.UnitAcyclic.induction`).
-/

namespace SemiringParsing

open Relation

variable {π : Type} [Number π]

namespace Grammar

/-- A unit production expands one nonterminal to the other. -/
def UnitStep (G : Grammar π) (source target : String) : Prop :=
  ∃ r ∈ G.rules, UnitCycle.isStep r.toProduction source target = true

/-- No chain of unit productions is a cycle. -/
def UnitAcyclic (G : Grammar π) : Prop :=
  ∀ name, ¬ TransGen G.UnitStep name name

open Classical in
/-- The number of nonterminals that chains of unit productions lead to. -/
noncomputable def unitRank (G : Grammar π) (name : String) : Nat :=
  (G.nonterminals.toFinset.filter (TransGen G.UnitStep name)).card

variable {G : Grammar π} {source target name : String}

theorem unitStep_iff : G.UnitStep source target ↔
    ∃ r ∈ G.rules, r.left = .nonterminal source ∧ r.right = [.nonterminal target] := by
  simp [UnitStep, UnitCycle.isStep]

/-- Without unit productions there is no chain of them. -/
theorem unitAcyclic_of_forall
    (h : ∀ r ∈ G.rules, r.isUnit = true → r.right.all (·.nonterminal?.isNone) = true) :
    G.UnitAcyclic := by
  intro name hcycle
  obtain ⟨target, hstep, -⟩ := TransGen.head'_iff.1 hcycle
  obtain ⟨r, hr, -, hright⟩ := unitStep_iff.1 hstep
  have hnone := h r hr (by simp [Production.isUnit, Production.length, hright])
  simp [hright, Category.nonterminal?] at hnone

theorem UnitStep.mem_nonterminals (h : G.UnitStep source target) : target ∈ G.nonterminals := by
  obtain ⟨r, hr, -, hright⟩ := unitStep_iff.1 h
  exact mem_nonterminals_of_mem_right hr (by simp [hright])

open Classical in
theorem unitRank_le (G : Grammar π) (name : String) : G.unitRank name ≤ G.nonterminals.length :=
  (Finset.card_filter_le ..).trans (List.toFinset_card_le _)

open Classical in
/-- Unit productions lower the rank. -/
theorem unitRank_lt (hacyclic : G.UnitAcyclic) (h : G.UnitStep source target) :
    G.unitRank target < G.unitRank source := by
  apply Finset.card_lt_card
  rw [Finset.ssubset_iff_of_subset]
  · refine ⟨target, ?_, ?_⟩
    · exact Finset.mem_filter.2 ⟨List.mem_toFinset.2 h.mem_nonterminals, .single h⟩
    · intro hmem
      exact hacyclic target (Finset.mem_filter.1 hmem).2
  · intro other hmem
    obtain ⟨hother, hpath⟩ := Finset.mem_filter.1 hmem
    exact Finset.mem_filter.2 ⟨hother, .head h hpath⟩

/-- What holds of a nonterminal over a stretch of tokens as soon as it holds over all shorter ones,
and of those that unit productions lead to over the same one, holds throughout. -/
theorem UnitAcyclic.induction (hacyclic : G.UnitAcyclic) {Q : String → Nat → Nat → Prop}
    (step : ∀ name i j, (∀ name' i' j', j' - i' < j - i → Q name' i' j') →
      (∀ name', G.UnitStep name name' → Q name' i j) → Q name i j) :
    ∀ name i j, Q name i j := by
  have hlength : ∀ n name i j, j - i = n → Q name i j := by
    intro n
    induction n using Nat.strong_induction_on with
    | _ n ihLength =>
      have hrank : ∀ m name i j, j - i = n → G.unitRank name = m → Q name i j := by
        intro m
        induction m using Nat.strong_induction_on with
        | _ m ihRank =>
          intro name i j hn hm
          refine step name i j (fun name' i' j' hlt => ?_) fun name' hstep => ?_
          · exact ihLength (j' - i') (hn ▸ hlt) name' i' j' rfl
          · exact ihRank _ (hm ▸ unitRank_lt hacyclic hstep) name' i j hn rfl
      intro name i j hn
      exact hrank _ name i j hn rfl
  intro name i j
  exact hlength _ name i j rfl

end Grammar

end SemiringParsing
