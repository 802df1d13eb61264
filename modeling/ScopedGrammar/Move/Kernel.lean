import ScopedGrammar.Move.Copying
import ScopedGrammar.Move.Deletion
import ScopedGrammar.Move.Insertion
import ScopedGrammar.Move.Regeneration

/-!
# Kernels

A kernel is a way of moving between trees that can say how likely it is to turn one given tree into
another. Insertion, deletion and copying alone do not reach every tree; a mixture with
regeneration does.
-/
namespace ScopedGrammar

/-- A way of moving from one tree to another. -/
inductive Kernel (K : Type) where
  | regeneration
  | insert
  | delete
  | copy
  /-- One of several kernels, drawn in proportion to its weight. -/
  | mixture (components : List (K × Kernel K))

namespace Kernel

variable {K : Type} [Scalar K]

mutual

/-- The kernel can reach every tree in one move: it regenerates, or is a mixture that gives
positive weight to a kernel that does. -/
def isErgodic : Kernel K → Bool
  | regeneration => true
  | mixture components => anyErgodic components
  | insert | delete | copy => false

def anyErgodic : List (K × Kernel K) → Bool
  | [] => false
  | (w, k) :: components => (Scalar.lt 0 w && k.isErgodic) || anyErgodic components

end

mutual

/-- Move from a tree to another. -/
def propose (g : Grammar K) (w : SiteWeights K) (t : Tree K) : Kernel K → Sampler K (Tree K)
  | regeneration => Regeneration.propose g w t
  | insert => Insertion.propose g w t
  | delete => Deletion.propose w t
  | copy => Copying.propose w t
  | mixture components => do
      match ← weightedIndex (components.map (·.1)) with
      | none => throw .proposalFailed
      | some i => proposeNth g w t i.val components

/-- Move from a tree by the component at a position. -/
def proposeNth (g : Grammar K) (w : SiteWeights K) (t : Tree K) :
    Nat → List (K × Kernel K) → Sampler K (Tree K)
  | _, [] => throw .proposalFailed
  | 0, (_, k) :: _ => k.propose g w t
  | i + 1, _ :: components => proposeNth g w t i components

end

mutual

/-- The log-probability that `propose` turns the first tree into the second. -/
def logProbability (g : Grammar K) (w : SiteWeights K) (s t : Tree K) :
    Kernel K → Except GrammarError K
  | regeneration => Regeneration.logProbability g w s t
  | insert => Insertion.logProbability g w s t
  | delete => pure (Deletion.logProbability w s t)
  | copy => pure (Copying.logProbability w s t)
  | mixture components => do
      let lps ← componentLogProbabilities g w s t (Scalar.sum (components.map (·.1))) components
      pure (Scalar.logSumExp lps)

/-- The log-probabilities of the components of positive weight, each after that of drawing it from
the total weight. -/
def componentLogProbabilities (g : Grammar K) (w : SiteWeights K) (s t : Tree K) (total : K) :
    List (K × Kernel K) → Except GrammarError (List K)
  | [] => pure []
  | (weight, k) :: components =>
      if Scalar.lt 0 weight then do
        let lp ← k.logProbability g w s t
        let lps ← componentLogProbabilities g w s t total components
        pure ((Scalar.safeLog weight - Scalar.safeLog total + lp) :: lps)
      else componentLogProbabilities g w s t total components

end

end Kernel

/-- A kernel with the choice of its sites and the number of its attempts. -/
structure Proposer (K : Type) where
  kernel : Kernel K
  sites : SiteWeights K
  /-- How often a proposal is tried that may fail recoverably. -/
  maxAttempts : Nat

/-- What one attempt comes to. -/
inductive Attempt (K : Type) where
  /-- A tree, with the log-probability of getting there less that of getting back. -/
  | moved (t : Tree K) (forwardBackward : K)
  /-- The kernel failed in a way that a fresh draw may avoid. -/
  | failed (cause : SampleError)

namespace Proposer

/-- The number of attempts where nothing else is said. -/
def defaultAttempts : Nat := 100

variable {K : Type} [Scalar K]

/-- Move from a tree to another. -/
def proposeTree (p : Proposer K) (g : Grammar K) (t : Tree K) : Sampler K (Tree K) :=
  p.kernel.propose g p.sites t

/-- The log-probability that `proposeTree` turns the first tree into the second. -/
def logProbability (p : Proposer K) (g : Grammar K) (s t : Tree K) : Except GrammarError K :=
  p.kernel.logProbability g p.sites s t

/-- The log-probability of getting from one tree to another less that of getting back. -/
def forwardBackward (p : Proposer K) (g : Grammar K) (s t : Tree K) : Except GrammarError K := do
  let forward ← p.logProbability g s t
  let backward ← p.logProbability g t s
  pure (forward - backward)

/-- Try once to move from a tree. A chain takes a recoverable failure for a rejected move, since the
probabilities of a kernel count only what it makes. -/
def proposeOnce (p : Proposer K) (g : Grammar K) (t : Tree K) : Sampler K (Attempt K) := do
  let outcome ← tryCatch (do let t' ← p.proposeTree g t; pure (Except.ok t')) fun e =>
    if e.isRecoverable then pure (.error e) else throw e
  match outcome with
  | .error e => pure (.failed e)
  | .ok t' => do
      let fb ← Sampler.ofGrammar (p.forwardBackward g t t')
      pure (.moved t' fb)

/-- Move from a tree, trying again after recoverable failures. -/
def proposeWithin (p : Proposer K) (g : Grammar K) (t : Tree K) : Nat → Sampler K (Tree K × K)
  | 0 => throw .proposalFailed
  | attempts + 1 => do
      match ← p.proposeOnce g t with
      | .moved t' fb => pure (t', fb)
      | .failed _ => p.proposeWithin g t attempts

/-- Move from a tree within the number of attempts; the result is conditioned on success. -/
def propose (p : Proposer K) (g : Grammar K) (t : Tree K) : Sampler K (Tree K × K) :=
  p.proposeWithin g t p.maxAttempts

end Proposer

end ScopedGrammar
