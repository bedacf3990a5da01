/-!
# Binary numbers, exactly

A double-precision number is a sign, a significand and a power of two. This module reads them
off its 64-bit word, and gives the two operations that decimal writing needs: the value as a
multiple of a power of ten, and the interval of reals that round to it. All arithmetic is on
natural numbers, so nothing is rounded on the way.
-/

namespace SemiringParsing.Decimal

/-- A power of two. -/
def powTwo (n : Nat) : Nat := Nat.pow 2 n

/-- A power of ten. -/
def powTen (n : Nat) : Nat := Nat.pow 10 n

/-- What a 64-bit word says: no number, an infinity, or a number with its sign apart. -/
inductive Reading
  | nan
  | infinite (negative : Bool)
  | finite (negative : Bool) (significand : Nat) (exponent : Int)
  deriving DecidableEq, Repr

/-- The fields of a word: one bit of sign, eleven of exponent, fifty-two of fraction. An
exponent field of zero marks a fraction without its leading one. -/
def Reading.ofWord (word : Nat) : Reading :=
  let negative := word / powTwo 63 % 2 == 1
  let field : Nat := word / powTwo 52 % powTwo 11
  let fraction := word % powTwo 52
  if field = 2047 then
    if fraction = 0 then .infinite negative else .nan
  else if field = 0 then
    .finite negative fraction (-1074)
  else
    .finite negative (powTwo 52 + fraction) ((field : Int) - 1075)

/-- The sign, significand and exponent of a double. -/
def Reading.ofFloat (x : Float) : Reading :=
  .ofWord x.toBits.toNat

/-- A positive rational number as a quotient of two naturals. -/
structure Quotient where
  num : Nat
  den : Nat
  deriving DecidableEq, Repr

/-- The quotient `n * 2 ^ twos / 10 ^ tens`: the number `n * 2 ^ twos` in units of
`10 ^ tens`. -/
def Quotient.inUnits (n : Nat) (twos tens : Int) : Quotient where
  num := n * powTwo twos.toNat * powTen (-tens).toNat
  den := powTwo (-twos).toNat * powTen tens.toNat

/-- The integer part. -/
def Quotient.floor (q : Quotient) : Nat :=
  q.num / q.den

/-- What is left over the integer part, in units of the denominator. -/
def Quotient.rest (q : Quotient) : Nat :=
  q.num % q.den

/-- The number of decimal digits of a natural number; zero has one. -/
def digitCount (n : Nat) : Nat :=
  (Nat.toDigits 10 n).length

/-- The power of ten at the leading digit of a positive quotient `q`: the exponent `e` with
`10 ^ e ≤ q < 10 ^ (e + 1)`. The digit counts of the two parts leave two candidates. -/
def Quotient.leadingExponent (q : Quotient) : Int :=
  let e : Int := (digitCount q.num : Int) - digitCount q.den
  if q.den * powTen e.toNat ≤ q.num * powTen (-e).toNat then e else e - 1

/-- A positive number with the ends of the interval of reals that round to it, all three as
multiples of `2 ^ twos`, a quarter of the number's last binary place. The ends belong to the
interval when `closed` holds. -/
structure Rounded where
  low : Nat
  value : Nat
  high : Nat
  twos : Int
  closed : Bool
  deriving DecidableEq, Repr

/-- The rounding interval of a positive double. Below a power of two the numbers lie twice as
dense as above it, so there the lower end is half as far away. A number with an even
significand wins the ties at both ends. -/
def Rounded.of (significand : Nat) (exponent : Int) : Rounded where
  low := if significand = powTwo 52 ∧ exponent ≠ -1074 then 4 * significand - 1
    else 4 * significand - 2
  value := 4 * significand
  high := 4 * significand + 2
  twos := exponent - 2
  closed := significand % 2 == 0

/-- Whether `n * 10 ^ tens` rounds to the number. -/
def Rounded.admits (r : Rounded) (tens : Int) (n : Nat) : Bool :=
  let low := Quotient.inUnits r.low r.twos tens
  let high := Quotient.inUnits r.high r.twos tens
  if r.closed then low.num ≤ n * low.den && n * high.den ≤ high.num
  else low.num < n * low.den && n * high.den < high.num

end SemiringParsing.Decimal
