import ScopedGrammar.Decimal.Fixed

/-!
# Shortest form

A number with the fewest digits that still read back as itself, written out without an exponent.
The numbers that read back lie in the interval halfway to both neighbours, its ends included where
the mantissa is even. The count of digits grows until a decimal number of that many digits lies
within; of two the nearer is taken, and of two equally near ones the larger.
-/
namespace ScopedGrammar.Decimal

/-- The interval of what reads back as `m * 2 ^ e`, in quarters of the last place: its lower end,
its middle and its upper end. Below a power of two the neighbours lie closer. -/
def interval (m : Nat) (e : Int) : Nat × Nat × Nat :=
  (if m = implicitBit && minExponent < e then 4 * m - 1 else 4 * m - 2, 4 * m, 4 * m + 2)

/-- The multiple of `10 ^ k` in the interval that is nearest to its middle, if there is one. -/
def gridPoint (m : Nat) (e k : Int) : Option Nat :=
  let quotient := fun q : Nat =>
    let (n, d) := fraction q (e - 2)
    scaleDown n d k
  let (lower, middle, upper) := interval m e
  let (n, d) := quotient middle
  let floor := n / d
  let inside := fun c : Nat =>
    let (nl, dl) := quotient lower
    let (nu, du) := quotient upper
    if m % 2 = 0 then nl ≤ c * dl && c * du ≤ nu else nl < c * dl && c * du < nu
  let nearer := if 2 * (n % d) < d then [floor, floor + 1] else [floor + 1, floor]
  nearer.find? inside

/-- The digits of the first grid with a point in the interval, and the exponent of the last of
them; `count` digits have been tried in vain. -/
def shortestFrom (m : Nat) (e leading : Int) : Nat → Nat → Nat × Int
  | 0, count => ((gridPoint m e (leading - count)).getD 0, leading - count)
  | tries + 1, count =>
      match gridPoint m e (leading - count) with
      | some c => (c, leading - count)
      | none => shortestFrom m e leading tries (count + 1)

/-- The shortest digits of a positive number and the exponent of the last of them. Seventeen
digits are always enough. -/
def shortestDigits (m : Nat) (e : Int) : Nat × Int :=
  let (n, d) := fraction m e
  shortestFrom m e (leadingExponent n d) 16 0

/-- The point above the largest of one digit is that of the next grid: it loses its zero. -/
def carried (c : Nat) (k : Int) : Nat × Int := if c = 10 then (1, k + 1) else (c, k)

/-- Write a number out, with a point only if there are places after it. -/
def positional (c : Nat) (k : Int) : String :=
  if 0 ≤ k then String.ofList (digits (c * Nat.pow 10 k.toNat)) else pointBefore (-k).toNat (digits c)

/-- The shortest form of a number; an integer has no point. -/
def shortest (x : Float) : String :=
  match valueOf x with
  | .nan => "NaN"
  | .infinite negative => infinityText negative
  | .finite negative 0 _ => signText negative ++ "0"
  | .finite negative m e =>
      let (c, k) := shortestDigits m e
      let (c, k) := carried c k
      signText negative ++ positional c k

end ScopedGrammar.Decimal
