import ScopedGrammar.Decimal.Binary

/-!
# Reading decimal numbers

A decimal number with an optional exponent is read as the nearest binary number. What lies beyond
the largest finite number is read as infinite, and what is too small as zero.
-/
namespace ScopedGrammar.Decimal

/-- The parts of a decimal number: its sign, the digits with the point left out, and the exponent
of the last digit. -/
structure Literal where
  negative : Bool
  digits : List Char
  exponent : Int
  deriving Repr, DecidableEq

/-- The number that decimal digits stand for. -/
def natOfDigits (ds : List Char) : Nat :=
  ds.foldl (fun n c => 10 * n + (c.toNat - '0'.toNat)) 0

/-- The binary number nearest to a decimal one. Every number whose leading digit has an exponent
above 400 is too large, and below -400 too small, so that powers of ten stay moderate. -/
def Literal.toFloat (l : Literal) : Float :=
  let m := natOfDigits l.digits
  let leading := l.exponent + ((ScopedGrammar.Decimal.digits m).length : Int) - 1
  let magnitude : Float :=
    if m = 0 || leading < -400 then 0.0
    else if 400 < leading then 1.0 / 0.0
    else Float.ofScientific m (l.exponent < 0) l.exponent.natAbs
  if l.negative then -magnitude else magnitude

end ScopedGrammar.Decimal
