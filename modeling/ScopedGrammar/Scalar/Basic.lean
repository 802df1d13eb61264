/-!
# Scalars

The numbers that weights, probabilities and scores are made of. Every definition of the library
that computes with them is stated over a `Scalar`, in one fixed order of operations, so that it
runs on binary floating point and can be read as exact arithmetic in proofs. The comparisons are
those of floating point: `nan` compares with nothing, itself included.
-/
namespace ScopedGrammar

/-- Numbers with the operations of scoring and the three values that scoring may run into: two
infinities and an undefined result. -/
class Scalar (K : Type) extends
    Zero K, One K, Add K, Sub K, Neg K, Mul K, Div K, BEq K where
  /-- The number that counts `n` things. -/
  ofNat : Nat → K
  log : K → K
  exp : K → K
  inf : K
  nan : K
  lt : K → K → Bool
  le : K → K → Bool

namespace Scalar

variable {K : Type} [Scalar K]

/-- The log-probability of the impossible. -/
def negInf : K := -inf

/-- An undefined value is the only one that differs from itself. -/
def isNaN (x : K) : Bool := !(x == x)

def isInf (x : K) : Bool := x == inf || x == negInf

def isFinite (x : K) : Bool := !isNaN x && !isInf x

/-- The sum of a list, added up from the left. -/
def sum (xs : List K) : K := xs.foldl (· + ·) 0

@[simp] theorem sum_nil : sum ([] : List K) = 0 := rfl

/-- Neither number is below the other: they are equal, or one of them is undefined. -/
def indistinct (x y : K) : Bool := !lt x y && !lt y x

end Scalar

instance : Scalar Float where
  zero := 0.0
  one := 1.0
  add := (· + ·)
  sub := (· - ·)
  neg := (- ·)
  mul := (· * ·)
  div := (· / ·)
  beq := (· == ·)
  ofNat := Float.ofNat
  log := Float.log
  exp := Float.exp
  inf := 1.0 / 0.0
  nan := 0.0 / 0.0
  lt x y := x < y
  le x y := x ≤ y

end ScopedGrammar
