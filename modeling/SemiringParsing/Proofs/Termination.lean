import SemiringParsing.Proofs.Number.Truth
import SemiringParsing.Proofs.Sweep.Room
import SemiringParsing.Proofs.Sweep.Termination

/-!
# Which parses settle

Without cycles of unit productions all parses settle, whatever the operations of the algebra are
(`Parser.settles_of_unitAcyclic`). With reachability all parses settle, whatever the grammar is
(`Parser.settles_boolean`). Its scores are zero and one. A sum that differs from its first term has
gone from zero to one, and no score goes back.
-/

namespace SemiringParsing

open ExtendedNumber

section Boolean

variable {α τ : Type} [ExtendedNumber α] [TellsZeroFromOne α]

/-- What reachability computes are truth values, whatever tokens weigh. -/
theorem Parser.confines_boolean (G : Grammar α) (options : ParseOptions τ α)
    (tokens : List (Token τ)) :
    (Parser.new G .boolean).Confines options tokens fun _ _ a => ∃ b : Bool, a = ofTruth b := by
  refine .of_closed ScoreAlgebra.positive_boolean.closed (fun _ _ => ⟨_, rfl⟩) ?_
  intro position token a ha
  unfold Scan.reweigh
  split
  · exact ha
  · split
    · exact ha
    · exact ⟨_, rfl⟩

/-- A truth value has room to change as long as it is zero. -/
theorem ScoreAlgebra.narrows_boolean (position : Nat) :
    (boolean : ScoreAlgebra α α).Narrows (fun _ _ a => ∃ b : Bool, a = ofTruth b) position
      fun a => !Number.eq a 1 where
  plus_le := by
    rintro - - _ _ - ⟨a, rfl⟩ ⟨b, rfl⟩
    rw [boolean_plus_ofTruth, eq_ofTruth_one, eq_ofTruth_one]
    cases a <;> cases b <;> decide
  same_of_eq := by
    rintro - - _ _ - ⟨a, rfl⟩ ⟨b, rfl⟩ heq
    rw [boolean_plus_ofTruth, eq_ofTruth_one, eq_ofTruth_one, Bool.not_inj_iff] at heq
    rw [boolean_plus_ofTruth, heq, ScoreAlgebra.same, Bool.or_eq_true]
    left
    cases a
    · exact TellsZeroFromOne.zero_eq_zero
    · exact TellsZeroFromOne.one_eq_one

/-- **Parses settle** with reachability, whatever the grammar and the weights of tokens. -/
theorem Parser.settles_boolean (G : Grammar α) (options : ParseOptions τ α)
    (tokens : List (Token τ)) : (Parser.new G .boolean).Settles options tokens :=
  settles_of_narrows (confines_boolean G options tokens) fun position =>
    ⟨Bool, inferInstance, inferInstance, _, ScoreAlgebra.narrows_boolean position⟩

end Boolean

/-- **Which parses settle.** Without cycles of unit productions all do, in any algebra, without a
law that it obeys. With reachability all do, for any grammar. -/
theorem Parser.settles :
    (∀ {π α τ : Type} [Number π] (p : Parser π α), p.grammar.UnitAcyclic →
      ∀ (options : ParseOptions τ α) (tokens : List (Token τ)), p.Settles options tokens) ∧
    ∀ {α τ : Type} [ExtendedNumber α] [TellsZeroFromOne α] (G : Grammar α)
      (options : ParseOptions τ α) (tokens : List (Token τ)),
      (Parser.new G .boolean).Settles options tokens :=
  ⟨fun _ hacyclic => settles_of_unitAcyclic hacyclic, settles_boolean⟩

/-- Recursion on the left is no cycle of unit productions. A cycle of them takes reachability. -/
theorem Parser.settles_leftRecursive_unitCycle :
    (Examples.leftRecursiveGrammar.UnitAcyclic ∧
      (Parser.new Examples.leftRecursiveGrammar .negLog).Settles ({} : ParseOptions String Exact)
        [Token.literal "n", Token.literal "+", Token.literal "n"]) ∧
    ¬ Examples.unitCycleGrammar.UnitAcyclic ∧
      (Parser.new Examples.unitCycleGrammar .boolean).Settles ({} : ParseOptions String Exact)
        [Token.literal "x"] := by
  have hacyclic : Examples.leftRecursiveGrammar.UnitAcyclic :=
    Grammar.unitAcyclic_of_forall (by decide +kernel)
  have hcycle : ¬ Examples.unitCycleGrammar.UnitAcyclic := by
    have hsteps : (Examples.unitCycleGrammar.rules.any fun r =>
        UnitCycle.isStep r.toProduction "A" "B") = true ∧
        (Examples.unitCycleGrammar.rules.any fun r =>
          UnitCycle.isStep r.toProduction "B" "A") = true := by decide +kernel
    intro hacyclic
    exact hacyclic "A" (.head (List.any_eq_true.1 hsteps.1) (.single (List.any_eq_true.1 hsteps.2)))
  exact ⟨⟨hacyclic, settles.1 (Parser.new Examples.leftRecursiveGrammar .negLog) hacyclic {} _⟩,
    hcycle, settles.2 Examples.unitCycleGrammar {} _⟩

end SemiringParsing
