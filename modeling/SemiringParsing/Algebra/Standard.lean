import SemiringParsing.Algebra.Basic
import SemiringParsing.Number.Basic

/-!
# The standard algebras

Four algebras over any extended numbers: probabilities, negative log probabilities, best
derivations and reachability. The first and third keep invalid operands detectable: whatever
is combined with a value that is not a member gives negative infinity, which is none either.
-/

namespace SemiringParsing

/-! ## Operations on extended numbers -/

namespace ExtendedNumber

open Number

variable {α : Type} [ExtendedNumber α]

/-- Negative infinity, the mark of an invalid probability. -/
def negInfinity : α := -infinity

/-- Whether a number is zero or more; infinity is. -/
def isNonneg (a : α) : Bool :=
  !isNaN a && le 0 a

/-- A product in which zero annihilates an infinite factor too. -/
def annihilatingProduct (a b : α) : α :=
  if eq a 0 || eq b 0 then 0 else a * b

/-- An operation on non-negative numbers that answers negative infinity for other operands. -/
def onNonneg (op : α → α → α) (a b : α) : α :=
  if isNonneg a && isNonneg b then op a b else negInfinity

/-- The larger of two numbers, the first of two equal ones. -/
def larger (a b : α) : α :=
  if lt a b then b else a

/-- An operation on numbers that answers no number when an operand is none. -/
def onNumbers (op : α → α → α) (a b : α) : α :=
  if isNaN a || isNaN b then nan else op a b

/-- The cost of an alternative between costs: `-log (e ^ (-a) + e ^ (-b))`, taken from the lower
cost so that the exponential cannot overflow. -/
def costOfEither (a b : α) : α :=
  if eq a infinity then b
  else if eq b infinity then a
  else
    let low := if lt a b then a else b
    let high := if lt a b then b else a
    if eq low negInfinity then low
    else low - logOneAdd (exp (-(high - low)))

/-- The cost of two things together. What is impossible stays so, even beside a cost of negative
infinity. -/
def costOfBoth (a b : α) : α :=
  if eq a infinity || eq b infinity then infinity else a + b

/-- Whether a number is a truth value: zero or one. -/
def isTruth (a : α) : Bool :=
  eq a 0 || eq a 1

/-- The number of a truth value. -/
def ofTruth (b : Bool) : α :=
  if b then 1 else 0

end ExtendedNumber

/-! ## The algebras -/

namespace ScoreAlgebra

open ExtendedNumber

variable {α : Type} [ExtendedNumber α]

/-- Plain probabilities with sum and product. Positive infinity is a member: it is the closure
of a weight of one or more. -/
def probability : ScoreAlgebra α α where
  plus := onNonneg (· + ·)
  times := onNonneg annihilatingProduct
  zero := 0
  one := 1
  star a :=
    if !isNonneg a then negInfinity
    else if Number.lt a 1 then 1 / (1 - a)
    else infinity
  member := isNonneg
  properties := .ofList [.leftSemiring, .rightSemiring, .commutative]
  ofProbability p := p
  toProbability s := s
  eq := Number.eq
  isNaN := Number.isNaN

/-- Negative log probabilities, read as costs: lower is likelier. Negative infinity is the cost
of a divergent closure, and every number is a member. -/
def negLog : ScoreAlgebra α α where
  plus := onNumbers costOfEither
  times := onNumbers costOfBoth
  zero := infinity
  one := 0
  star a :=
    if Number.isNaN a then nan
    else if Number.lt 0 a then log (-expSubOne (-a))
    else negInfinity
  member a := !Number.isNaN a
  properties := .ofList [.leftSemiring, .rightSemiring, .commutative]
  ofProbability p := -log p
  toProbability s := exp (-s)
  eq := Number.eq
  isNaN := Number.isNaN

/-- The score of the best derivation: probabilities with maximum and product. -/
def viterbi : ScoreAlgebra α α where
  plus := onNonneg larger
  times := onNonneg annihilatingProduct
  zero := 0
  one := 1
  star a :=
    if !isNonneg a then negInfinity
    else if Number.le a 1 then 1
    else infinity
  member := isNonneg
  properties := .ofList [.leftSemiring, .rightSemiring, .commutative, .idempotent]
  ofProbability p := p
  toProbability s := s
  eq := Number.eq
  isNaN := Number.isNaN

/-- Reachability: one for what can be derived and zero for what cannot, with disjunction and
conjunction. -/
def boolean : ScoreAlgebra α α where
  plus a b := ofTruth (isTruth a && isTruth b && (Number.eq a 1 || Number.eq b 1))
  times a b := ofTruth (isTruth a && isTruth b && (Number.eq a 1 && Number.eq b 1))
  zero := 0
  one := 1
  star a := ofTruth (isTruth a)
  member := isTruth
  properties := .ofList [.leftSemiring, .rightSemiring, .commutative, .idempotent]
  ofProbability p := ofTruth (Number.lt 0 p)
  toProbability s := s
  eq := Number.eq
  isNaN := Number.isNaN

end ScoreAlgebra

end SemiringParsing
