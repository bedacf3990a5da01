import SemiringParsing.Decimal.Shortest
import SemiringParsing.Number.Basic

/-!
# Double-precision numbers

The instance that programs run with. A double is written by its shortest digits.

The two functions near zero are computed from `exp` and `log` alone. With `u` the rounded value
of `e ^ x` the quotient `(u - 1) / log u` is accurate even where `u - 1` is not, because its
error in `u` cancels; multiplied by `x` it gives `e ^ x - 1`. The same quotient upside down
gives `log (1 + x)`.
-/

namespace SemiringParsing

namespace Double

/-- Positive infinity. -/
def infinity : Float := 1.0 / 0.0

/-- The value that is no number. -/
def nan : Float := 0.0 / 0.0

/-- The exponential less one. -/
def expSubOne (x : Float) : Float :=
  let u := x.exp
  if u == 1.0 then x
  else if u - 1.0 == -1.0 then -1.0
  else if u == infinity then infinity
  else (u - 1.0) * (x / u.log)

/-- The logarithm of one plus the argument. -/
def logOneAdd (x : Float) : Float :=
  let u := 1.0 + x
  if u == 1.0 then x
  else if u == infinity then infinity
  else u.log * (x / (u - 1.0))

end Double

instance : ExtendedNumber Float where
  zero := 0.0
  one := 1.0
  lt x y := decide (x < y)
  le x y := decide (x ≤ y)
  eq x y := x == y
  isNaN x := x.isNaN
  text := Decimal.shortest
  infinity := Double.infinity
  nan := Double.nan
  exp := Float.exp
  log := Float.log
  expSubOne := Double.expSubOne
  logOneAdd := Double.logOneAdd

end SemiringParsing
