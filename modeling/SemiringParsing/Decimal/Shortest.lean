import SemiringParsing.Decimal.Binary

/-!
# Shortest decimal digits

The shortest decimal of a double is the one with the fewest significant digits that reads back
as the same double, and of those the nearest to it. On the grid of multiples of a power of ten
only the two neighbours of the number can qualify: if any point of the grid lies in the
rounding interval, one of them does. `Rounded.shortest?` tries the grids up to seventeen
digits, which always suffice.

Numbers are written without an exponent, whatever their size, and without a point when they
are whole.
-/

namespace SemiringParsing.Decimal

/-- The neighbour of the number on the grid of `10 ^ tens` that reads back as it, the nearer
one if both do. Halfway between them the larger is taken. -/
def Rounded.onGrid? (r : Rounded) (tens : Int) : Option Nat :=
  let q := Quotient.inUnits r.value r.twos tens
  let below := r.admits tens q.floor
  let above := r.admits tens (q.floor + 1)
  if above && (!below || q.den ≤ 2 * q.rest) then some (q.floor + 1)
  else if below then some q.floor
  else none

/-- The shortest decimal `n * 10 ^ tens` that reads back as the number, as the pair of `n` and
`tens`. The first grid is the one above the leading digit, for a number that reads back from
the next power of ten; so `n` never ends in a zero. -/
def Rounded.shortest? (r : Rounded) : Option (Nat × Int) :=
  let leading := (Quotient.inUnits r.value r.twos 0).leadingExponent
  (List.range 18).findSome? fun (i : Nat) =>
    let tens := leading + 1 - i
    (r.onGrid? tens).map fun n => (n, tens)

/-- The digits of `n * 10 ^ tens`, with a point only where there is a fraction. -/
def positional (n : Nat) (tens : Int) : List Char :=
  let digits := Nat.toDigits 10 n
  if 0 ≤ tens then
    digits ++ List.replicate tens.toNat '0'
  else
    let places := (-tens).toNat
    let padded := List.replicate (places + 1 - digits.length) '0' ++ digits
    padded.take (padded.length - places) ++ '.' :: padded.drop (padded.length - places)

/-- The text of a number by its shortest digits. Zero keeps its sign, a number that is none
has no sign. -/
def Reading.text : Reading → String
  | .nan => "NaN"
  | .infinite negative => if negative then "-inf" else "inf"
  | .finite negative significand exponent =>
    let digits :=
      if significand = 0 then ['0']
      else match (Rounded.of significand exponent).shortest? with
        | some (n, tens) => positional n tens
        | none => []
    String.ofList (if negative then '-' :: digits else digits)

/-- The shortest decimal text that reads back as the number. -/
def shortest (x : Float) : String :=
  (Reading.ofFloat x).text

end SemiringParsing.Decimal
