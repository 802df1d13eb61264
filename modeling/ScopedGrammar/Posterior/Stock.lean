import ScopedGrammar.Posterior.Model

/-!
# Stock models

Ready-made priors and likelihoods. A datum is a number: the value of a term itself, a target that
the depth or the size of a tree is measured against, or an offset to a table of the renderings of
trees.
-/
namespace ScopedGrammar

/-- A ready-made prior. -/
inductive StockPrior (K : Type) where
  /-- The log-probability of the grammar. -/
  | grammar
  /-- The same, and impossible beyond a number of nodes. -/
  | bounded (maxNodes : Nat)
  /-- The same value for every tree. -/
  | fixed (value : K)

/-- A ready-made likelihood. -/
inductive StockLikelihood (K : Type) where
  /-- The datum itself. -/
  | flat
  /-- The distance of the depth from the datum, as a penalty. -/
  | depth
  /-- The distance of the number of nodes from the datum, as a penalty. -/
  | nodes
  /-- The value that the table has for the rendering of the tree, or else the default, plus the
  datum. -/
  | table (entries : List (String × K)) (default : K)

section

variable {K : Type} [Scalar K]

/-- The distance of a count from a target, as a penalty. -/
def distancePenalty (count : Nat) (target : K) : K :=
  let d := Scalar.ofNat count - target
  if Scalar.lt d 0 then d else -d

def StockPrior.logPrior (p : StockPrior K) (g : Grammar K) (t : Tree K) : Except GrammarError K :=
  match p with
  | grammar => g.logProbability t
  | bounded maxNodes => sizeBoundedPrior maxNodes g t
  | fixed value => pure value

def StockLikelihood.term (l : StockLikelihood K) (t : Tree K) (datum : K) : K :=
  match l with
  | flat => datum
  | depth => distancePenalty t.depth datum
  | nodes => distancePenalty t.countNodes datum
  | table entries default => (entries.lookup t.render).getD default + datum

/-- The model of a ready-made prior and likelihood. -/
def stockModel (p : StockPrior K) (l : StockLikelihood K) (allowance : Option Nat) : Model K K :=
  ⟨p.logPrior, l.term, allowance⟩

end

end ScopedGrammar
