import ScopedGrammar.Decimal.Binary

/-!
# Scientific form

A number as one digit, a point, more digits and a power of ten. The exact value is rounded to the
count of digits, a half to the even neighbour. The exponent is written without padding and with a
sign only if it is negative.
-/
namespace ScopedGrammar.Decimal

/-- The digits of a positive quotient, rounded to `places` of them after the first, and the
exponent of the first. -/
def scientificDigits (places : Nat) (n d : Nat) : List Char × Int :=
  let e := leadingExponent n d
  let (n, d) := scaleDown n d (e - places)
  let c := roundDiv n d
  if c = Nat.pow 10 (places + 1) then (digits (c / 10), e + 1) else (digits c, e)

/-- A number with the given count of digits after the point. Zero has no sign and one digit. -/
def scientific (places : Nat) (x : Float) : String :=
  match valueOf x with
  | .nan => "NaN"
  | .infinite negative => infinityText negative
  | .finite _ 0 _ => "0"
  | .finite negative m e =>
      let (n, d) := fraction m e
      let (ds, e) := scientificDigits places n d
      signText negative ++ String.ofList (ds.take 1) ++ "." ++ String.ofList (ds.drop 1) ++
        "e" ++ toString e

end ScopedGrammar.Decimal
