import ScopedGrammar.Decimal.Binary

/-!
# Fixed places

A number with a fixed count of decimal places: the exact value is rounded, a half to the even
neighbour, and the sign is kept also on zero.
-/
namespace ScopedGrammar.Decimal

/-- Digits with a point before the last `places` of them; zeros fill up what is missing. -/
def pointBefore (places : Nat) (ds : List Char) : String :=
  let ds := List.replicate (places + 1 - ds.length) '0' ++ ds
  if places = 0 then String.ofList ds
  else
    String.ofList (ds.take (ds.length - places)) ++ "." ++
      String.ofList (ds.drop (ds.length - places))

/-- A number with the given count of places. -/
def fixed (places : Nat) (x : Float) : String :=
  match valueOf x with
  | .nan => "NaN"
  | .infinite negative => infinityText negative
  | .finite negative m e =>
      let (n, d) := fraction m e
      signText negative ++ pointBefore places (digits (roundDiv (n * Nat.pow 10 places) d))

end ScopedGrammar.Decimal
