import ScopedGrammar.Grammar.Scoring
import ScopedGrammar.Posterior.Score

/-!
# Models

A model gives every tree a prior and every datum a likelihood under a tree. The likelihood of data
is summed from left to right, and the sum is broken off as soon as it is impossible, undefined, or
below a bound. A tally counts the evaluations, and a model may be good for a number of priors
only.
-/
namespace ScopedGrammar

/-- How many evaluations have been made. -/
structure Tally where
  priors : Nat
  likelihoods : Nat
  deriving Repr, DecidableEq

/-- Add up terms until the sum is impossible, undefined or below the bound, which makes it
impossible; with the number of terms that were looked at. -/
def sumAbove {K : Type} [Scalar K] (bound : K) : K → List K → K × Nat
  | acc, [] => (acc, 0)
  | acc, x :: xs =>
      let acc := acc + x
      if acc == Scalar.negInf || Scalar.isNaN acc then (acc, 1)
      else if Scalar.lt acc bound then (Scalar.negInf, 1)
      else
        let (total, n) := sumAbove bound acc xs
        (total, n + 1)

/-- A posterior over trees for data of type `D`. -/
structure Model (K D : Type) where
  logPrior : Grammar K → Tree K → Except GrammarError K
  /-- The log-likelihood of one datum. -/
  term : Tree K → D → K
  /-- After this many priors the model gives out. -/
  allowance : Option Nat

/-- The log-probability of a tree in the grammar, impossible for one with too many nodes. -/
def sizeBoundedPrior {K : Type} [Scalar K] (maxNodes : Nat) (g : Grammar K) (t : Tree K) :
    Except GrammarError K :=
  if maxNodes < t.countNodes then pure Scalar.negInf else g.logProbability t

namespace Model

variable {K D : Type} [Scalar K]

/-- What a model that has given out reports. -/
def givenOut : GrammarError := .unknownNonterminal "model"

/-- The prior of a tree, after a number of evaluations made before. -/
def priorAfter (m : Model K D) (made : Nat) (g : Grammar K) (t : Tree K) : Except GrammarError K :=
  if m.allowance.any (· ≤ made) then .error givenOut else m.logPrior g t

/-- The log-likelihood of data, impossible if it falls below a bound on the way, and the number of
data that were looked at. -/
def countedLikelihood (m : Model K D) (t : Tree K) (data : List D) (bound : Option K) : K × Nat :=
  sumAbove (bound.getD Scalar.negInf) 0 (data.map (m.term t))

/-- The log-likelihood of data, impossible if it falls below a bound on the way. -/
def logLikelihood (m : Model K D) (t : Tree K) (data : List D) (bound : Option K) : K :=
  (m.countedLikelihood t data bound).1

/-- The score of a tree with a prior: an impossible tree has an undefined likelihood. -/
def scoreWithPrior (m : Model K D) (t : Tree K) (data : List D) (prior : K) : Score K :=
  if prior == Scalar.negInf then ⟨prior, Scalar.nan, Scalar.negInf⟩
  else
    let likelihood := m.logLikelihood t data none
    ⟨prior, likelihood, prior + likelihood⟩

/-- The score of a tree. -/
def logPosterior (m : Model K D) (g : Grammar K) (t : Tree K) (data : List D) :
    Except GrammarError (Score K) := do
  let prior ← m.logPrior g t
  pure (m.scoreWithPrior t data prior)

/-- The score of a tree, with the evaluations added to those made before. -/
def assess (m : Model K D) (g : Grammar K) (t : Tree K) (data : List D) (made : Tally) :
    Except GrammarError (Score K) × Tally :=
  let counted := { made with priors := made.priors + 1 }
  match m.priorAfter made.priors g t with
  | .error e => (.error e, counted)
  | .ok prior =>
      let terms :=
        if prior == Scalar.negInf then 0 else (m.countedLikelihood t data none).2
      (.ok (m.scoreWithPrior t data prior),
        { counted with likelihoods := made.likelihoods + terms })

/-- A model that never gives out scores a tree the same however often it was asked before. -/
theorem assess_fst (m : Model K D) (hm : m.allowance = none) (g : Grammar K) (t : Tree K)
    (data : List D) (made : Tally) : (m.assess g t data made).1 = m.logPosterior g t data := by
  simp only [assess, logPosterior, priorAfter, hm]
  cases m.logPrior g t <;> rfl

end Model

end ScopedGrammar
