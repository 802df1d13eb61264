/-!
# Exact values of binary numbers

A finite binary number is an integer times a power of two, so its decimal forms are found by exact
integer arithmetic. `roundDiv` rounds a quotient to the nearest integer, a half to the even
neighbour.
-/
namespace ScopedGrammar.Decimal

/-- What a binary number of 64 bits stands for. -/
inductive Value where
  | nan
  | infinite (negative : Bool)
  /-- The number `mantissa * 2 ^ exponent`, up to its sign. -/
  | finite (negative : Bool) (mantissa : Nat) (exponent : Int)
  deriving Repr, DecidableEq

/-- The integer by which a normal number of the least binade is counted. -/
def implicitBit : Nat := Nat.pow 2 52

/-- The exponent of the finest numbers. -/
def minExponent : Int := -1074

/-- Read the bits of a number: sign, eleven bits of exponent and the fraction. -/
def valueOfBits (bits : UInt64) : Value :=
  let negative := bits.toNat / Nat.pow 2 63 == 1
  let exponent := bits.toNat / Nat.pow 2 52 % Nat.pow 2 11
  let fraction := bits.toNat % Nat.pow 2 52
  if exponent == 2047 then
    if fraction == 0 then .infinite negative else .nan
  else if exponent == 0 then .finite negative fraction minExponent
  else .finite negative (implicitBit + fraction) (minExponent + (exponent - 1 : Nat))

def valueOf (x : Float) : Value := valueOfBits x.toBits

/-- A quotient rounded to the nearest integer, a half to the even one. -/
def roundDiv (n d : Nat) : Nat :=
  let q := n / d
  let r := n % d
  if 2 * r < d then q
  else if d < 2 * r then q + 1
  else if q % 2 = 0 then q else q + 1

/-- The number `m * 2 ^ e` as a quotient. -/
def fraction (m : Nat) (e : Int) : Nat × Nat :=
  if 0 ≤ e then (m * Nat.pow 2 e.toNat, 1) else (m, Nat.pow 2 (-e).toNat)

/-- The quotient of `n / d` by `10 ^ k`. -/
def scaleDown (n d : Nat) (k : Int) : Nat × Nat :=
  if 0 ≤ k then (n, d * Nat.pow 10 k.toNat) else (n * Nat.pow 10 (-k).toNat, d)

/-- The decimal digits of a number. -/
def digits (n : Nat) : List Char := Nat.toDigits 10 n

/-- The exponent of the leading decimal digit of a positive quotient. -/
def leadingExponent (n d : Nat) : Int :=
  if d ≤ n then ((digits (n / d)).length : Int) - 1
  else
    let k := (digits d).length - (digits n).length
    if d ≤ n * Nat.pow 10 k then -(k : Int) else -(k + 1 : Int)

def signText (negative : Bool) : String := if negative then "-" else ""

def infinityText (negative : Bool) : String := signText negative ++ "inf"

end ScopedGrammar.Decimal
