import ScopedGrammar.Random.Sampler
import ScopedGrammar.Scalar.LogSpace
import ScopedGrammar.Tree.Place

/-!
# Sites of an edit

An edit begins with the choice of a node. Every node has a weight, and a node is drawn in
proportion to it; a weight of zero keeps an edit away from a node.
-/
namespace ScopedGrammar

/-- How likely a node is to be the site of an edit, before a move looks at it. -/
inductive SiteWeights (K : Type) where
  /-- Every node is as likely as the other. -/
  | uniform
  /-- Leaves have this weight, and other nodes the weight `1`. -/
  | leaves (weight : K)

/-- The weight of a node. -/
def SiteWeights.weight {K : Type} [Scalar K] (w : SiteWeights K) (t : Tree K) : K :=
  match w with
  | uniform => 1
  | leaves weight => if t.isLeaf then weight else 1

namespace Tree

variable {K : Type} [Scalar K]

/-- The total weight of the nodes of a tree. -/
def siteTotal (weight : Place → Tree K → K) (t : Tree K) : K :=
  Scalar.sum (t.subnodes.map fun s => weight s.1 s.2)

/-- The log-probability that the node at a place is drawn, given the total weight. -/
def siteLogProbabilityOf (total : K) (weight : Place → Tree K → K) (t : Tree K) (p : Place) : K :=
  match t.get? p with
  | some n => Scalar.safeLog (weight p n) - Scalar.safeLog total
  | none => Scalar.negInf

/-- The log-probability that the node at a place is drawn. -/
def siteLogProbability (weight : Place → Tree K → K) (t : Tree K) (p : Place) : K :=
  t.siteLogProbabilityOf (t.siteTotal weight) weight p

/-- Draw a node in proportion to its weight, if one has any: its place, the node, and the
log-probability of the draw. -/
def drawSite (weight : Place → Tree K → K) (t : Tree K) : Sampler K (Option (Place × Tree K × K)) :=
  if Scalar.lt 0 (t.siteTotal weight) then do
    let site ← weightedChoice (fun s => weight s.1 s.2) t.subnodes
    pure <| site.map fun (p, n) =>
      (p, n, Scalar.log (weight p n) - Scalar.log (t.siteTotal weight))
  else pure none

end Tree

end ScopedGrammar
