import ScopedGrammar.Move.Difference
import ScopedGrammar.Move.Site

/-!
# Deletion

A node is replaced by one of its arguments, and the others are dropped. The argument has to expand
the same nonterminal and must not use a variable that the node introduces; each such argument is
as likely as the other.
-/
namespace ScopedGrammar.Deletion

variable {K : Type}

/-- The argument positions whose subtree can take the place of the node. -/
def promotableSlots (t : Tree K) : List Nat :=
  (t.childrenWithIndex.filter fun c =>
    c.2.nonterminal == t.nonterminal &&
      t.introduced?.all fun v => !c.2.freeVariables.contains v.name).map (·.1)

variable [Scalar K]

/-- The weight of a node as a site, zero if it has no argument that can take its place. -/
def siteWeight (w : SiteWeights K) (_ : Place) (n : Tree K) : K :=
  if (promotableSlots n).isEmpty then 0 else w.weight n

/-- Replace the node at a place that is drawn by one of its arguments. -/
def propose (w : SiteWeights K) (t : Tree K) : Sampler K (Tree K) := do
  match ← t.drawSite (siteWeight w) with
  | none => throw .proposalFailed
  | some (p, n, _) => do
      let slot ← uniformChoice (promotableSlots n)
      let child := slot.bind n.child?
      Sampler.getOrFail .proposalFailed (child.bind (t.replace? p))

/-- The log-probabilities of getting from one tree to another by a deletion at each of the places
where an argument of the first tree is alike to the subtree of the second, given the total weight
of the first tree. -/
def siteLogProbabilities (w : SiteWeights K) (total : K) (s t : Tree K) (places : List Place) :
    List K :=
  places.filterMap fun p =>
    match s.get? p with
    | none => none
    | some n =>
        let slots := promotableSlots n
        let matching := slots.filter fun slot => s.alikeAt (p ++ [slot]) t p
        if matching.isEmpty then none
        else
          some (s.siteLogProbabilityOf total (siteWeight w) p
            + Scalar.log (Scalar.ofNat matching.length) - Scalar.log (Scalar.ofNat slots.length))

/-- The log-probability that `propose` turns the first tree into the second. -/
def logProbability (w : SiteWeights K) (s t : Tree K) : K :=
  match s.leastCommonDifference t with
  | none => Scalar.negInf
  | some p => Scalar.logSumExp (siteLogProbabilities w (s.siteTotal (siteWeight w)) s t p.upTo)

end ScopedGrammar.Deletion
