import Mathlib.Order.WellFoundedSet
import SemiringParsing.Proofs.Grammar.UnitRank

/-!
# Grammars that do not recurse on the left

A rule leads from its left side to the nonterminal in its first place. When no chain of rules leads
back to where it began, no nonterminal begins with itself. Then unit productions form no cycle
either, and what is to be shown of all nonterminals at all positions can be shown by induction on
the position and, within, along the chains (`Grammar.CornerAcyclic.induction`).
-/

namespace SemiringParsing

/-- The nonterminal in the first place of a production. -/
def Production.corner? (q : Production) : Option String :=
  (q.categoryAt? 0).bind Category.nonterminal?

theorem Production.corner?_eq_some {q : Production} {name : String} :
    q.corner? = some name ↔ q.categoryAt? 0 = some (.nonterminal name) := by
  simp [corner?, Option.bind_eq_some_iff]

namespace Grammar

open Relation

variable {π : Type} [Number π] {G : Grammar π} {source target : String}

/-- A rule has a nonterminal as its left side and the other one in its first place. -/
def CornerStep (G : Grammar π) (source target : String) : Prop :=
  ∃ r ∈ G.rules, r.left = .nonterminal source ∧ r.right[0]? = some (.nonterminal target)

/-- No chain of rules leads from a nonterminal in first places back to it. -/
def CornerAcyclic (G : Grammar π) : Prop :=
  ∀ name, ¬ TransGen G.CornerStep name name

theorem CornerStep.mem_nonterminals (h : G.CornerStep source target) :
    source ∈ G.nonterminals := by
  obtain ⟨r, hr, hleft, -⟩ := h
  exact Grammar.mem_nonterminals.2 ⟨r, hr, hleft⟩

theorem CornerStep.target_mem_nonterminals (h : G.CornerStep source target) :
    target ∈ G.nonterminals := by
  obtain ⟨r, hr, -, htarget⟩ := h
  exact Grammar.mem_nonterminals_of_mem_right hr (List.mem_of_getElem? htarget)

/-- Steps between finitely many names that never lead back begin somewhere. -/
theorem wellFounded_of_acyclic {step : String → String → Prop} {names : List String}
    (hmem : ∀ source target, step source target → source ∈ names)
    (hacyclic : ∀ name, ¬ TransGen step name name) : WellFounded step := by
  have : IsStrictOrder String (TransGen step) := { irrefl := hacyclic }
  have hfinite : {name | name ∈ names}.Finite := List.finite_toSet _
  have hchains := hfinite.wellFoundedOn (r := TransGen step)
  constructor
  intro target
  constructor
  intro source hstep
  refine hchains.induction (P := Acc step) (hmem _ _ hstep) fun name _ ih => ?_
  constructor
  intro before hbefore
  exact ih before (hmem _ _ hbefore) (.single hbefore)

namespace CornerAcyclic

/-- Where every rule leads down no chain leads back. -/
theorem of_rank (rank : String → Nat)
    (hrank : ∀ r ∈ G.rules, r.corner?.all fun target =>
      r.left.nonterminal?.any fun source => decide (rank target < rank source)) :
    G.CornerAcyclic := by
  have hstep : ∀ source target, G.CornerStep source target → rank target < rank source := by
    rintro source target ⟨r, hr, hleft, hfirst⟩
    have hdown := hrank r hr
    rw [Production.corner?_eq_some.2 hfirst, hleft] at hdown
    exact of_decide_eq_true hdown
  intro name hcycle
  have hdown : TransGen (fun m n : Nat => n < m) (rank name) (rank name) :=
    TransGen.lift rank hstep _ _ hcycle
  rw [transGen_eq_self] at hdown
  exact Nat.lt_irrefl _ hdown

/-- A cycle of unit productions recurses on the left. -/
theorem unitAcyclic (h : G.CornerAcyclic) : G.UnitAcyclic := by
  intro name hcycle
  apply h name
  refine TransGen.mono (fun source target hstep => ?_) _ _ hcycle
  obtain ⟨r, hr, hleft, hright⟩ := unitStep_iff.1 hstep
  exact ⟨r, hr, hleft, by rw [hright]; rfl⟩

/-- The chains that lead to a nonterminal begin somewhere. -/
theorem wellFounded (h : G.CornerAcyclic) : WellFounded G.CornerStep :=
  wellFounded_of_acyclic (fun _ _ => CornerStep.mem_nonterminals) h

/-- The chains that lead from a nonterminal end somewhere. -/
theorem wellFounded_swap (h : G.CornerAcyclic) : WellFounded (Function.swap G.CornerStep) := by
  refine wellFounded_of_acyclic (fun _ _ => CornerStep.target_mem_nonterminals) fun name hcycle => ?_
  exact h name (transGen_swap.1 hcycle)

/-- What holds of a nonterminal at a position as soon as all hold earlier, and those that lead to it
there, holds throughout. -/
theorem induction (h : G.CornerAcyclic) {Q : String → Nat → Prop}
    (step : ∀ name position, (∀ name' position', position' < position → Q name' position') →
      (∀ name', G.CornerStep name' name → Q name' position) → Q name position) :
    ∀ name position, Q name position := by
  intro name position
  induction position using Nat.strong_induction_on generalizing name with
  | _ position ihPosition =>
    induction name using h.wellFounded.induction with
    | _ name ihName =>
      apply step name position
      · exact fun name' position' hlt => ihPosition position' hlt name'
      · exact ihName

end CornerAcyclic

end Grammar

end SemiringParsing
