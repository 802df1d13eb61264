import ScopedGrammar.Grammar.Generation
import ScopedGrammar.Grammar.Scoring
import ScopedGrammar.Move.Difference
import ScopedGrammar.Move.Site

/-!
# Insertion

A subtree is wrapped in a new node that takes it as one argument; the other arguments are
generated below the new node. The new node comes from a rule that expands its own nonterminal
again, each such rule as likely as the other, and each of its slots for that nonterminal as likely
as the other.
-/
namespace ScopedGrammar.Insertion

variable {K : Type} [Scalar K]

/-- The visible rules at a place of which a node can take the subtree there as an argument. -/
def replicatingRules (g : Grammar K) (t : Tree K) (p : Place) : List (Rule K) :=
  match t.get? p with
  | some n =>
      (g.visibleRules n.nonterminal (.above t p)).filter fun r => !r.replicatingSlots.isEmpty
  | none => []

/-- The weight of a node as a site, zero if nothing can be put around it. -/
def siteWeight (g : Grammar K) (w : SiteWeights K) (t : Tree K) (p : Place) (n : Tree K) : K :=
  if (replicatingRules g t p).isEmpty then 0 else w.weight n

/-- Fill the arguments of a new node in from position `i` on: the subtree at its slot, and what is
generated elsewhere. -/
def fillArgs (g : Grammar K) (scope : Scope K) (slot : Nat) (inner : Tree K) :
    Nat → List String → Sampler K (List (Arg K))
  | _, [] => pure []
  | i, s :: symbols => do
      let a ←
        if i == slot then pure (.subtree inner)
        else if g.isNonterminal s then do
          let t ← g.generateIn scope s
          pure (.subtree t)
        else pure (.terminal s)
      let as ← fillArgs g scope slot inner (i + 1) symbols
      pure (a :: as)

/-- Put a new node around the subtree at a place that is drawn. -/
def propose (g : Grammar K) (w : SiteWeights K) (t : Tree K) : Sampler K (Tree K) := do
  match ← t.drawSite (siteWeight g w t) with
  | none => throw .proposalFailed
  | some (p, inner, _) => do
      let r ← uniformChoice (replicatingRules g t p)
      let r ← Sampler.getOrFail .proposalFailed r
      let slot ← uniformChoice r.replicatingSlots
      let slot ← Sampler.getOrFail .proposalFailed slot
      let kind ← Sampler.ofNaming (g.kindOf r)
      let as ← fillArgs g (Scope.below (.above t p) kind) slot inner 0 r.symbols
      Sampler.getOrFail (.grammar (.invalidPlace p))
        (t.replace? p (.node r.nonterminal r.name kind (some as)))

/-- The log-probability of generating the arguments of the node at a place, those in the slot
apart, after that of choosing the slot. -/
def siblingsLogProbability (g : Grammar K) (t : Tree K) (p : Place) (slot : Nat) :
    K → List (Nat × Tree K) → Except GrammarError K
  | lp, [] => pure lp
  | lp, (i, _) :: siblings =>
      if i == slot then siblingsLogProbability g t p slot lp siblings
      else do
        let lp' ← g.logProbabilityAt t (p ++ [i])
        siblingsLogProbability g t p slot (lp + lp') siblings

/-- The log-probabilities of the slots of the second tree's node at a place that hold the subtree
of the first tree there. -/
def slotLogProbabilities (g : Grammar K) (s t n : Tree K) (p : Place) (slots : List Nat) :
    List Nat → Except GrammarError (List K)
  | [] => pure []
  | slot :: rest =>
      if s.alikeAt p t (p ++ [slot]) then do
        let lp ← siblingsLogProbability g t p slot (-Scalar.log (Scalar.ofNat slots.length))
          n.childrenWithIndex
        let lps ← slotLogProbabilities g s t n p slots rest
        pure (lp :: lps)
      else slotLogProbabilities g s t n p slots rest

/-- The log-probabilities of getting from one tree to another by an insertion at each of the
places, given the total weight of the first tree. Places where the nonterminals differ and places
that are never drawn are passed over. -/
def siteLogProbabilities (g : Grammar K) (w : SiteWeights K) (total : K) (s t : Tree K) :
    List Place → Except GrammarError (List K)
  | [] => pure []
  | p :: ps =>
      match s.get? p, t.get? p with
      | some m, some n =>
          let choose := s.siteLogProbabilityOf total (siteWeight g w s) p
          if m.nonterminal != n.nonterminal || choose == Scalar.negInf then
            siteLogProbabilities g w total s t ps
          else do
            let r ← g.ruleForNode (.above t p) n
            let slotLps ← slotLogProbabilities g s t n p r.replicatingSlots r.replicatingSlots
            let ruleCount := Scalar.ofNat (replicatingRules g s p).length
            let lps ← siteLogProbabilities g w total s t ps
            pure ((choose - Scalar.safeLog ruleCount + Scalar.logSumExp slotLps) :: lps)
      | _, _ => siteLogProbabilities g w total s t ps

/-- The log-probability that `propose` turns the first tree into the second. -/
def logProbability (g : Grammar K) (w : SiteWeights K) (s t : Tree K) : Except GrammarError K :=
  match s.leastCommonDifference t with
  | none => pure Scalar.negInf
  | some p => do
      let lps ← siteLogProbabilities g w (s.siteTotal (siteWeight g w s)) s t p.upTo
      pure (Scalar.logSumExp lps)

end ScopedGrammar.Insertion
