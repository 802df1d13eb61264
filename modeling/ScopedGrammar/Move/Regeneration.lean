import ScopedGrammar.Grammar.Generation
import ScopedGrammar.Grammar.Scoring
import ScopedGrammar.Move.Difference
import ScopedGrammar.Move.Site

/-!
# Regeneration

A subtree is replaced by a new one, generated for the same nonterminal in the same scope. The
probability of getting from one tree to another sums over every place whose regeneration can
account for all of their differences.
-/
namespace ScopedGrammar.Regeneration

variable {K : Type} [Scalar K]

/-- Regenerate the subtree at a place that is drawn. -/
def propose (g : Grammar K) (w : SiteWeights K) (t : Tree K) : Sampler K (Tree K) := do
  match ← t.drawSite fun _ n => w.weight n with
  | none => throw .exhausted
  | some (p, n, _) => do
      let r ← g.generateIn (.above t p) n.nonterminal
      Sampler.getOrFail (.grammar (.invalidPlace p)) (t.replace? p r)

/-- The log-probabilities of getting from one tree to another at each of the places, given the
total weight of the first tree. Places where the nonterminals differ and places that are never
drawn are passed over. -/
def siteLogProbabilities (g : Grammar K) (w : SiteWeights K) (total : K) (s t : Tree K) :
    List Place → Except GrammarError (List K)
  | [] => pure []
  | p :: ps =>
      let sameType :=
        match s.get? p, t.get? p with
        | some m, some n => m.nonterminal == n.nonterminal
        | _, _ => false
      let choose := s.siteLogProbabilityOf total (fun _ n => w.weight n) p
      if !sameType || choose == Scalar.negInf then siteLogProbabilities g w total s t ps
      else do
        let lp ← g.logProbabilityAt t p
        let lps ← siteLogProbabilities g w total s t ps
        pure ((choose + lp) :: lps)

/-- The log-probability that `propose` turns the first tree into the second. -/
def logProbability (g : Grammar K) (w : SiteWeights K) (s t : Tree K) : Except GrammarError K := do
  let total := s.siteTotal fun _ n => w.weight n
  let lps ← siteLogProbabilities g w total s t (s.editSites t)
  pure (Scalar.logSumExp lps)

end ScopedGrammar.Regeneration
