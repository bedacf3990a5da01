import SemiringParsing.Algebra.Properties

/-!
# Scoring algebras

All combination of scores goes through a `ScoreAlgebra`, so that the same chart computes
probabilities, costs, scores of best derivations or plain reachability. Scores have a type `α`
of their own; rule probabilities, which enter through `ofProbability`, have a type `π`.

An algebra is meant to satisfy, for every member `x`: `plus zero x = x`, `times one x = x`,
`times zero x = zero` and `star x = plus one (times x (star x))`. Rounded arithmetic satisfies
these only nearly, so they are hypotheses of theorems and not fields.
-/

namespace SemiringParsing

/-- The operations on scores of type `α`, with the passage from and to probabilities of
type `π`. -/
structure ScoreAlgebra (π α : Type) where
  /-- Combines the scores of two derivations of the same thing. -/
  plus : α → α → α
  /-- Composes the scores of the parts of one derivation. -/
  times : α → α → α
  /-- The score of no derivation. -/
  zero : α
  /-- The score of the empty derivation. -/
  one : α
  /-- The closure `one + a + a * a + ...`, or the algebra's infinity where it diverges. -/
  star : α → α
  /-- Whether a value is a score of this algebra. -/
  member : α → Bool
  /-- What the algebra declares about itself. -/
  properties : Properties
  /-- The score of a probability. -/
  ofProbability : π → α
  /-- The probability of a score. -/
  toProbability : α → π
  /-- Numerical equality of scores. -/
  eq : α → α → Bool
  /-- Whether a value is no number, which as a weight means that there is no weight. -/
  isNaN : α → Bool

namespace ScoreAlgebra

variable {π α : Type}

/-- Two scores are the same when they are equal or when neither is a number. -/
def same (S : ScoreAlgebra π α) (a b : α) : Bool :=
  S.eq a b || (S.isNaN a && S.isNaN b)

/-- The combined score of a list, from the left. -/
def sum (S : ScoreAlgebra π α) (scores : List α) : α :=
  scores.foldl S.plus S.zero

/-- The composed score of a list, from the left. -/
def product (S : ScoreAlgebra π α) (scores : List α) : α :=
  scores.foldl S.times S.one

end ScoreAlgebra

end SemiringParsing
