import SemiringParsing.Decimal.Shortest

/-!
# Decimals with a fixed number of places

The exact binary value is rounded once, to the nearest multiple of the last decimal place, and
a tie goes to the even neighbour.
-/

namespace SemiringParsing.Decimal

/-- The nearest natural number, the even one of two at equal distance. -/
def Quotient.round (q : Quotient) : Nat :=
  if 2 * q.rest < q.den then q.floor
  else if q.den < 2 * q.rest then q.floor + 1
  else if q.floor % 2 = 0 then q.floor
  else q.floor + 1

/-- The text of a number with `places` decimal places. What rounds to zero has no sign. -/
def Reading.fixed (places : Nat) : Reading → String
  | .finite negative significand exponent =>
    let n := (Quotient.inUnits significand exponent (-places)).round
    let digits := positional n (-places)
    String.ofList (if negative && n != 0 then '-' :: digits else digits)
  | other => other.text

/-- A number rounded to `places` decimal places. -/
def fixed (places : Nat) (x : Float) : String :=
  (Reading.ofFloat x).fixed places

end SemiringParsing.Decimal
