import ScopedGrammar.Decimal.Fixed
import ScopedGrammar.Tree.Rendering

/-!
# Scores

The score of a tree has a prior and a likelihood, both as logarithms, and their sum. Prior and
likelihood are tempered by division. An impossible tree stays impossible at every temperature,
since its likelihood is not even computed.
-/
namespace ScopedGrammar

/-- The components of a log-posterior. -/
structure Score (K : Type) where
  prior : K
  likelihood : K
  posterior : K
  deriving Repr

/-- What the prior, the likelihood and the acceptance ratio of a chain are divided by. -/
structure Temperatures (K : Type) where
  prior : K
  likelihood : K
  acceptance : K
  deriving Repr

section

variable {K : Type} [Scalar K]

/-- Temperatures that change nothing. -/
def Temperatures.unit : Temperatures K := ⟨1, 1, 1⟩

/-- Every temperature is equal to the other's. -/
def Temperatures.same (t u : Temperatures K) : Bool :=
  t.prior == u.prior && t.likelihood == u.likelihood && t.acceptance == u.acceptance

namespace Score

/-- The score of a tree that nothing is known about. -/
def undefined : Score K := ⟨Scalar.nan, Scalar.nan, Scalar.nan⟩

/-- The log-posterior with prior and likelihood tempered each for itself. -/
def atTemperatures (s : Score K) (t : Temperatures K) : K :=
  if s.prior == Scalar.negInf then Scalar.negInf
  else s.prior / t.prior + s.likelihood / t.likelihood

/-- The log-posterior with only the likelihood tempered. -/
def atTemperature (s : Score K) (t : K) : K :=
  if s.prior == Scalar.negInf then Scalar.negInf else s.prior + s.likelihood / t

/-- No component of one score can be told from that of the other. -/
def indistinct (s u : Score K) : Bool :=
  Scalar.indistinct s.prior u.prior && Scalar.indistinct s.likelihood u.likelihood &&
    Scalar.indistinct s.posterior u.posterior

end Score

end

/-- A tree with its score. -/
structure Sample (K : Type) where
  tree : Tree K
  score : Score K

namespace Sample

/-- Samples of trees that are alike count as equal. -/
def alike {K : Type} (s t : Sample K) : Bool := s.tree.alike t.tree

instance {K : Type} : BEq (Sample K) := ⟨alike⟩

/-- Posterior, prior and likelihood with four places, and the tree, separated by tabs. -/
def render (s : Sample Float) : String :=
  "\t".intercalate
    [Decimal.fixed 4 s.score.posterior, Decimal.fixed 4 s.score.prior,
      Decimal.fixed 4 s.score.likelihood, s.tree.render]

end Sample

end ScopedGrammar
