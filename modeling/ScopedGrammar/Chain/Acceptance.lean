import ScopedGrammar.Scalar.Basic

/-!
# The acceptance rule

A proposed move is accepted by the ratio of the tempered posteriors, corrected by how much more
likely the move is than its reverse. What is undefined or impossible is decided and not passed on:
an undefined proposal, or one that could not be reversed, is never accepted; between two impossible
states, and away from an undefined one, a fair coin decides.
-/
namespace ScopedGrammar

section

variable {K : Type} [Scalar K]

/-- The logarithm of one half. -/
def logHalf : K := -Scalar.log (Scalar.ofNat 2)

/-- The log-ratio by which a move between states with the given log-posteriors is accepted. -/
def acceptanceLogRatio (current proposal forwardBackward temperature : K) : K :=
  if Scalar.isNaN proposal || forwardBackward == Scalar.inf then Scalar.negInf
  else if current == Scalar.negInf && proposal == Scalar.negInf then logHalf
  else if proposal == Scalar.negInf then Scalar.negInf
  else if Scalar.isNaN current then logHalf
  else (proposal - current - forwardBackward) / temperature

/-- A log-ratio accepts if it is not negative, or else if the draw fell below its exponential. -/
def acceptedBy (logRatio : K) (drawnBelow : Bool) : Bool := Scalar.le 0 logRatio || drawnBelow

/-- The rule for a given draw `u` from `[0, 1)`. -/
def accepts (current proposal forwardBackward temperature u : K) : Bool :=
  let r := acceptanceLogRatio current proposal forwardBackward temperature
  acceptedBy r (Scalar.lt u (Scalar.exp r))

end

end ScopedGrammar
