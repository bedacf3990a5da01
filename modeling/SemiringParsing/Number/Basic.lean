/-!
# Numbers

Rule probabilities and scores are computed in whatever arithmetic a program has. `Number` lists
the operations that the checks on a grammar use, `ExtendedNumber` adds infinities, a value that
is no number, and the four transcendental functions of the log algebra. Neither class carries
laws: doubles obey few, and an exact instance brings its own.

Comparisons are truth values, since a number that is none compares false with everything,
itself included.
-/

namespace SemiringParsing

/-- Field arithmetic with comparisons and a written form. -/
class Number (π : Type) extends Zero π, One π, Add π, Sub π, Mul π, Div π, OfScientific π where
  /-- Less than. -/
  lt : π → π → Bool
  /-- At most. -/
  le : π → π → Bool
  /-- Numerical equality. -/
  eq : π → π → Bool
  /-- Whether a value is no number at all. -/
  isNaN : π → Bool
  /-- The text of a value. -/
  text : π → String

/-- Numbers with infinities, and the functions that pass between probabilities and costs. -/
class ExtendedNumber (α : Type) extends Number α, Neg α where
  /-- Positive infinity. -/
  infinity : α
  /-- The value that is no number. -/
  nan : α
  /-- The exponential. -/
  exp : α → α
  /-- The natural logarithm. -/
  log : α → α
  /-- The exponential less one, accurate near zero. -/
  expSubOne : α → α
  /-- The logarithm of one plus the argument, accurate near zero. -/
  logOneAdd : α → α

end SemiringParsing
