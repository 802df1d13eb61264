import ScopedGrammar.Grammar.Basic

/-!
# Scoring trees

The log-probability of a tree is the sum of those of its nodes. A node counts the weight of its
rule against the weight of all that is visible for its nonterminal, in the scope of the variables
introduced above it. A tree with a node that no visible rule made, or more than one, has no
score; the first such node in pre-order says why.
-/
namespace ScopedGrammar.Grammar

variable {K : Type} [Scalar K]

/-- The log-probability that the root of a tree is chosen in a scope. -/
def nodeLogProbability (g : Grammar K) (scope : Scope K) (t : Tree K) : Except GrammarError K := do
  let r ← g.ruleForNode scope t
  pure (Scalar.log r.weight - Scalar.log (g.visibleWeight t.nonterminal scope))

mutual

/-- The log-probability of generating a tree where the variables of a scope can be used. -/
def logProbabilityIn (g : Grammar K) (scope : Scope K) : Tree K → Except GrammarError K
  | .node nt name kind none => g.nodeLogProbability scope (.node nt name kind none)
  | .node nt name kind (some as) => do
      let lp ← g.nodeLogProbability scope (.node nt name kind (some as))
      g.addArgs (scope.below kind) lp as

/-- Add the log-probabilities of the subtrees among the arguments, from left to right. -/
def addArgs (g : Grammar K) (scope : Scope K) (lp : K) : List (Arg K) → Except GrammarError K
  | [] => pure lp
  | .subtree t :: as => do
      let lp' ← g.logProbabilityIn scope t
      g.addArgs scope (lp + lp') as
  | .terminal _ :: as => g.addArgs scope lp as

end

/-- The log-probability of generating a tree with no variable in scope. -/
def logProbability (g : Grammar K) (t : Tree K) : Except GrammarError K := g.logProbabilityIn [] t

/-- The subtree at a place, which has to exist. -/
def subtreeAt (root : Tree K) (p : Place) : Except GrammarError (Tree K) :=
  match root.get? p with
  | some t => .ok t
  | none => .error (.invalidPlace p)

/-- The log-probability of the subtree at a place in its scope. -/
def logProbabilityAt (g : Grammar K) (root : Tree K) (p : Place) : Except GrammarError K := do
  let t ← subtreeAt root p
  g.logProbabilityIn (.above root p) t

/-- The log-probability of the one node at a place, without its arguments. -/
def nodeLogProbabilityAt (g : Grammar K) (root : Tree K) (p : Place) : Except GrammarError K := do
  let t ← subtreeAt root p
  g.nodeLogProbability (.above root p) t

end ScopedGrammar.Grammar

namespace ScopedGrammar.Tree

variable {K : Type}

mutual

/-- All nodes in pre-order, each with its place and the scope in which it was made, if the root
was made in the given one. -/
def nodesInScope (scope : Scope K) : Tree K → List (Place × Tree K × Scope K)
  | .node nt name kind none => [([], .node nt name kind none, scope)]
  | .node nt name kind (some as) =>
      ([], .node nt name kind (some as), scope) :: nodesInScopeFrom (scope.below kind) 0 as

/-- The nodes of a list of arguments whose first has position `i`. -/
def nodesInScopeFrom (scope : Scope K) : Nat → List (Arg K) → List (Place × Tree K × Scope K)
  | _, [] => []
  | i, .subtree t :: as =>
      ((nodesInScope scope t).map fun (p, n) => (i :: p, n)) ++ nodesInScopeFrom scope (i + 1) as
  | i, .terminal _ :: as => nodesInScopeFrom scope (i + 1) as

end

end ScopedGrammar.Tree
