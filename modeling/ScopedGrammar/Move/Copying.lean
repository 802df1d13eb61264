import ScopedGrammar.Grammar.Scoring
import ScopedGrammar.Move.Difference
import ScopedGrammar.Move.Site

/-!
# Copying

A subtree is overwritten with a copy of another one that expands the same nonterminal and sees the
same variables. The binders of the copy get fresh names, so that no name is introduced twice.
-/
namespace ScopedGrammar

/-- Overwrite the subtree at `target` with a copy of the one at `source`. The copy must not use a
variable that is not introduced above the target. -/
def Tree.graftCopy {K : Type} (t : Tree K) (source target : Place) :
    ExceptT SampleError Naming (Tree K) := do
  match t.get? source with
  | none => throw .proposalFailed
  | some n => do
      let copy ← n.uniquify
      let visible := (t.variablesAbove target).map (·.name)
      if copy.freeVariables.all visible.contains then
        match t.replace? target copy with
        | some t => pure t
        | none => throw .proposalFailed
      else throw .proposalFailed

namespace Copying

variable {K : Type}

/-- What copying looks at in a node: where it is, what it expands, and the names of the variables
that can be used there, sorted. -/
structure Spot where
  place : Place
  nonterminal : String
  visible : List String

/-- The spots of a tree in pre-order. -/
def spots (t : Tree K) : List Spot :=
  (t.nodesInScope []).map fun (p, n, scope) =>
    ⟨p, n.nonterminal, (scope.map (·.name)).mergeSort fun a b => !decide (b < a)⟩

/-- A copy of the subtree at a source may overwrite the one at a target: both expand the same
nonterminal and see the same variables. -/
def Spot.fits (source target : Spot) : Bool :=
  target.nonterminal == source.nonterminal && target.visible == source.visible

/-- The places that a copy of the subtree at a place may overwrite, itself included. -/
def targets (t : Tree K) (source : Place) : List Place :=
  match (spots t).find? fun x => x.place == source with
  | none => []
  | some x => ((spots t).filter x.fits).map (·.place)

variable [Scalar K]

/-- Draw a source and then a target, and overwrite the target with a copy of the source. -/
def propose (w : SiteWeights K) (t : Tree K) : Sampler K (Tree K) := do
  match ← t.drawSite fun _ n => w.weight n with
  | none => throw .proposalFailed
  | some (source, _, _) => do
      let target ← uniformChoice (targets t source)
      let target ← Sampler.getOrFail .proposalFailed target
      Sampler.ofNamingExcept (t.graftCopy source target)

/-- The log-probabilities of the pairs of source and target by which the first tree becomes the
second. -/
def pairLogProbabilities (w : SiteWeights K) (s t : Tree K) : List K :=
  let weight := fun (_ : Place) (n : Tree K) => w.weight n
  let total := s.siteTotal weight
  let difference := s.leastCommonDifference t
  let sources := spots s
  let edits := (sources.filter fun x => Tree.mayAccount difference x.place).map fun x =>
    (x, t.canonicalAt x.place)
  sources.flatMap fun source =>
    let choose := s.siteLogProbabilityOf total weight source.place
      - Scalar.log (Scalar.ofNat (sources.countP source.fits))
    let text := s.canonicalAt source.place
    (edits.filter fun target =>
      source.fits target.1 && Tree.sameText text target.2).map fun _ => choose

/-- The log-probability that `propose` turns the first tree into the second. -/
def logProbability (w : SiteWeights K) (s t : Tree K) : K :=
  Scalar.logSumExp (pairLogProbabilities w s t)

end Copying

end ScopedGrammar
