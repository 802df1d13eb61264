import ScopedGrammar.Scalar.Basic

/-!
# Arithmetic on log-probabilities

Probabilities are kept as logarithms. `safeLog` sends what is not positive to the logarithm of
zero, and `logSumExp` adds probabilities without leaving the range of the numbers: the largest
term is taken out of the sum first.
-/
namespace ScopedGrammar.Scalar

variable {K : Type} [Scalar K]

/-- The logarithm of a positive number, and that of zero for every other. -/
def safeLog (x : K) : K := if lt 0 x then log x else negInf

/-- The larger of two numbers; an undefined second number is passed over. -/
def larger (x y : K) : K := if lt x y then y else x

/-- The largest of a list, and the logarithm of zero where there is none. -/
def largest (xs : List K) : K := xs.foldl larger negInf

/-- The logarithm of the sum of the numbers whose logarithms are given. -/
def logSumExp (xs : List K) : K :=
  let top := largest xs
  if top == negInf then negInf
  else if isInf top then top
  else top + log (sum (xs.map fun x => exp (x - top)))

end ScopedGrammar.Scalar
