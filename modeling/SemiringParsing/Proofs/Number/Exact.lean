import Mathlib.Data.Rat.Defs
import SemiringParsing.Grammar.Examples
import SemiringParsing.Proofs.Algebra.Positive

/-!
# Exact numbers

The rational numbers with two infinities and a value that is no number. Arithmetic follows the
rules that floating-point numbers have for these values, but nothing is rounded, so the standard
algebras over exact numbers obey the laws they are meant to obey. All is decidable, and parses
over exact numbers can be evaluated by the kernel.

The exponential and the logarithm are given where their values are rational or infinite. They
answer no number elsewhere.
-/

namespace SemiringParsing

/-- A rational number, an infinity, or no number. -/
inductive Exact
  | number (q : ℚ)
  | infinity
  | negInfinity
  | nan
  deriving DecidableEq

namespace Exact

/-- The infinity with the sign of a number, and no number for zero. -/
def infinityOf (q : ℚ) : Exact :=
  if q = 0 then nan else if 0 < q then infinity else negInfinity

/-- The number with the other sign. -/
def neg : Exact → Exact
  | number q => number (-q)
  | infinity => negInfinity
  | negInfinity => infinity
  | nan => nan

/-- Sums. Infinities of different signs have none. -/
def add : Exact → Exact → Exact
  | number p, number q => number (p + q)
  | nan, _ | _, nan | infinity, negInfinity | negInfinity, infinity => nan
  | infinity, _ | _, infinity => infinity
  | negInfinity, _ | _, negInfinity => negInfinity

/-- Products. Zero and an infinity have none. -/
def mul : Exact → Exact → Exact
  | number p, number q => number (p * q)
  | nan, _ | _, nan => nan
  | number q, infinity | infinity, number q => infinityOf q
  | number q, negInfinity | negInfinity, number q => neg (infinityOf q)
  | infinity, infinity | negInfinity, negInfinity => infinity
  | infinity, negInfinity | negInfinity, infinity => negInfinity

/-- The multiplicative inverse. That of zero is infinite. -/
def inv : Exact → Exact
  | number q => if q = 0 then infinity else number q⁻¹
  | infinity | negInfinity => number 0
  | nan => nan

/-- Less than. -/
def lt : Exact → Exact → Bool
  | number p, number q => decide (p < q)
  | negInfinity, number _ | negInfinity, infinity | number _, infinity => true
  | _, _ => false

/-- Numerical equality, which no number has with itself. -/
def eq (a b : Exact) : Bool :=
  a != nan && a == b

/-- The exponential of zero and of infinities. -/
def exp : Exact → Exact
  | number q => if q = 0 then number 1 else nan
  | infinity => infinity
  | negInfinity => number 0
  | nan => nan

/-- The logarithm of zero, one and infinity. -/
def log : Exact → Exact
  | number q => if q = 1 then number 0 else if q = 0 then negInfinity else nan
  | infinity => infinity
  | negInfinity | nan => nan

/-- The text of a value. -/
def text : Exact → String
  | number q => toString q
  | infinity => "inf"
  | negInfinity => "-inf"
  | nan => "NaN"

instance : ExtendedNumber Exact where
  zero := number 0
  one := number 1
  add := add
  sub a b := add a (neg b)
  mul := mul
  div a b := mul a (inv b)
  neg := neg
  ofScientific m s e := number (OfScientific.ofScientific m s e)
  lt := lt
  le a b := lt a b || eq a b
  eq := eq
  isNaN a := a == nan
  text := text
  infinity := infinity
  nan := nan
  exp := exp
  log := log
  expSubOne a := add (exp a) (number (-1))
  logOneAdd a := log (add (number 1) a)

instance : TellsZeroFromOne Exact where
  zero_eq_zero := by decide
  one_eq_one := by decide
  zero_eq_one := by decide
  one_eq_zero := by decide

end Exact

namespace Examples

/-- The unit cycle as an accepted grammar. -/
def unitCycleGrammar : Grammar Exact :=
  ⟨"A", unitCycle, by decide +kernel, _, rfl⟩

/-- The grammar that recurses on the left as an accepted one. -/
def leftRecursiveGrammar : Grammar Exact :=
  ⟨"E", leftRecursive, by decide +kernel, _, rfl⟩

/-- The ambiguous grammar as an accepted one. -/
def ambiguousGrammar : Grammar Exact :=
  ⟨"S", ambiguous, by decide +kernel, _, rfl⟩

/-- The ambiguous grammar with its two rules the other way round. -/
def ambiguousReversed : Grammar Exact :=
  ⟨"S", ambiguous.reverse, by decide +kernel, _, rfl⟩

/-- The grammar with parts of speech as an accepted one. -/
def taggedGrammar : Grammar Exact :=
  ⟨"S", tagged, by decide +kernel, _, rfl⟩

end Examples

end SemiringParsing
