import SemiringParsing.Proofs.Number.Nonneg
import SemiringParsing.Proofs.Sweep.FinalValues
import SemiringParsing.Proofs.Sweep.Termination

/-!
# The score of a parse

The score of a parse is the total weight of the derivation trees of its input. This needs an exact
commutative algebra, and a grammar without cycles of unit productions, so that an input has finitely
many trees. That the parse returns is part of the statement.

The value of the state that derives the whole input solves the recurrence of the chart, and so does
the sum over the trees (`Recurrence.value_goal`). The weight of the tokens is common to all trees.
-/

namespace SemiringParsing

variable {π α τ : Type} [Number π]

theorem ParseTree.forest_injective : Function.Injective ParseTree.forest := by
  rintro ⟨⟩ ⟨⟩ h
  simpa [forest] using h

/-- The forests that are a tree with a category at its root are those of its derivation trees. -/
theorem Grammar.forests_singleton {G : Grammar π} {tokens : List (Token τ)} {category : Category}
    {i j : Nat} : G.forests tokens [category] i j =
      ParseTree.forest '' {t | t.IsDerivation G tokens category i j} := by
  ext f
  constructor
  · rintro ⟨hroots, hspans⟩
    obtain ⟨t, rfl⟩ := Forest.exists_tree_of_roots hroots
    exact ⟨t, ParseTree.isDerivation_iff.2 ⟨hroots, hspans⟩, rfl⟩
  · rintro ⟨t, ht, rfl⟩
    exact ParseTree.isDerivation_iff.1 ht

/-- An input has finitely many derivation trees, and what they weigh adds up to what all forests
that are a single tree weigh. -/
theorem Grammar.exists_trees {G : Grammar π} (hacyclic : G.UnitAcyclic) (S : ScoreAlgebra π α)
    [S.IsCommSemiring] {options : ParseOptions τ α} (hoptions : options.WeighsIn S)
    (tokens : List (Token τ)) (category : Category) :
    ∃ trees : List ParseTree, trees.Nodup ∧
      (∀ t, t ∈ trees ↔ t.IsDerivation G tokens category 0 tokens.length) ∧
      S.member (S.sum (trees.map (ParseTree.weight S G options tokens))) = true ∧
      S.lift (S.sum (trees.map (ParseTree.weight S G options tokens))) =
        G.inside tokens S [category] 0 tokens.length *
          tokensWeight S options tokens 0 tokens.length := by
  have hforests := finite_forests tokens hacyclic [category] 0 tokens.length
  rw [forests_singleton] at hforests
  have hfinite : {t : ParseTree | t.IsDerivation G tokens category 0 tokens.length}.Finite :=
    hforests.of_finite_image ParseTree.forest_injective.injOn
  rw [inside, forests_singleton, finsum_mem_image ParseTree.forest_injective.injOn]
  exact exists_list_sum hfinite fun t => ParseTree.weight_mem hoptions t

namespace Parser

variable {p : Parser π α} {tokens : List (Token τ)} {options : ParseOptions τ α}

/-- The score of a parse is the value of the state that derives the whole input. -/
theorem lift_score [p.algebra.IsSemiring] {fuel : Nat} {result : ParseResult π α}
    (hinner : result.chart.InnerMembers p.algebra)
    (h : p.parse options fuel tokens = some result) :
    p.algebra.member result.score = true ∧ p.algebra.lift result.score =
      result.chart.value p.algebra (p.goal tokens.length).item := by
  obtain ⟨-, hroot, halgebra⟩ := reaches_of_parse h
  have hindexed := (finished_of_parse h).indexed
  unfold ParseResult.score
  rw [hroot]
  cases hid : result.chart.id? (p.goal tokens.length) with
  | none =>
    have hnone := hindexed.id?_eq_none.1 hid
    rw [Option.bind_none, Chart.value_eq_zero hnone]
    rw [halgebra]
    exact ⟨ScoreAlgebra.IsSemiring.zero_mem, ScoreAlgebra.lift_zero⟩
  | some id =>
    obtain ⟨r, hr, hitem⟩ := hindexed.id?_eq_some.1 hid
    rw [Option.bind_some, hr, Chart.value_of_record? hindexed hr hitem]
    exact ⟨hinner id r hr, rfl⟩

end Parser

end SemiringParsing
