import SemiringParsing.Algebra.Basic
import SemiringParsing.Chart.State
import SemiringParsing.Token

/-!
# Scanning

Scanning a token moves the dot of a state over it. A parse may weigh tokens by their value and
position; the weight is composed with both scores of the state. A weight that is no number
means that the token is not weighed, and is never combined with a score.
-/

namespace SemiringParsing

/-- How a parse is to be run: with a weight for each token, or without. -/
structure ParseOptions (τ α : Type) where
  weight? : Option (Nat → Token τ → α) := none

namespace ParseOptions

variable {τ α : Type}

/-- The weight of a token at a position, if tokens are weighed. -/
def weightOf? (options : ParseOptions τ α) (position : Nat) (token : Token τ) : Option α :=
  options.weight?.map fun weight => weight position token

/-- The text of the options. -/
def text (options : ParseOptions τ α) : String :=
  "ParseOptions \x7b scan_probability: " ++ toString options.weight?.isSome ++ " \x7d"

end ParseOptions

/-- A state behind a token, with its scores. -/
structure Scanned (π α : Type) where
  state : State π
  forward : α
  inner : α

namespace Scan

variable {π α : Type}

/-- A score composed with the weight of a token. -/
def reweigh (S : ScoreAlgebra π α) (weight? : Option α) (score : α) : α :=
  match weight? with
  | none => score
  | some weight => if S.isNaN weight then score else S.times score weight

/-- Moves the dot of a state over a token that ends at position `next`. A completed state scans
nothing. -/
def scan (S : ScoreAlgebra π α) (weight? : Option α) (next : Nat) (state : State π)
    (forward inner : α) : Except StateError (Option (Scanned π α)) :=
  (state.advance next).map fun state? =>
    state?.map fun state =>
      ⟨state, reweigh S weight? forward, reweigh S weight? inner⟩

end Scan

end SemiringParsing
