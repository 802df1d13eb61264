import ScopedGrammar.Grammar.Generation
import ScopedGrammar.Grammar.Scoring

/-!
# Traversals on one scope

Generation and scoring give the arguments of each node a scope of their own. A traversal carries
one scope along instead: a binder adds its variable before its arguments are visited, and behind
them the scope is cut back to its former length, whether they were finished or a failure came up.
Any other work on the nodes of a tree and their scopes is done by a visitor on such a traversal.
-/
namespace ScopedGrammar

/-- A computation that works on one scope and may fail. -/
abbrev Traversal (K ε : Type) (m : Type → Type) := ExceptT ε (StateT (Scope K) m)

namespace Traversal

variable {K ε α : Type} {m : Type → Type} [Monad m]

/-- Compute with the variables in force. -/
def withScope (x : Scope K → ExceptT ε m α) : Traversal K ε m α := fun scope => do
  let outcome ← (x scope).run
  pure (outcome, scope)

/-- Visit what is below a node of some kind, and cut the scope back behind it. -/
def below (kind : NodeKind K) (x : Traversal K ε m α) : Traversal K ε m α := fun scope => do
  let (outcome, inner) ← x (scope.below kind)
  pure (outcome, inner.take scope.length)

end Traversal

namespace Grammar

variable {K : Type} [Scalar K]

/-- A sampler that works on one scope. -/
abbrev ScopeSampler (K : Type) := Traversal K SampleError (StateT NameSupply (Rand K))

/-- Expand a nonterminal with the variables in force, where `levels` levels are left below the
limit of the depth, and `room` nodes if their number is limited. -/
def expandOn (g : Grammar K) : Nat → Option Nat → String → ScopeSampler K (Tree K × Option Nat)
  | 0, _, _ => throw .sizeExceeded
  | _, some 0, _ => throw .sizeExceeded
  | levels + 1, room, nt => do
      let r ← Traversal.withScope (g.sampleRule nt)
      let kind ← Traversal.withScope fun _ => Sampler.ofNaming (g.kindOf r)
      match r.expansion with
      | none => pure (.node r.nonterminal r.name kind none, room.map (· - 1))
      | some symbols => do
          let (as, room) ←
            Traversal.below kind (expandArgsOn (g.expandOn levels) (room.map (· - 1)) symbols)
          pure (.node r.nonterminal r.name kind (some as), room)
where
  /-- Fill the arguments in, given how a nonterminal is expanded. -/
  expandArgsOn (expand : Option Nat → String → ScopeSampler K (Tree K × Option Nat))
      (room : Option Nat) : List String → ScopeSampler K (List (Arg K) × Option Nat)
    | [] => pure ([], room)
    | s :: symbols => do
        if g.isNonterminal s then
          let (t, room) ← expand room s
          let (as, room) ← expandArgsOn expand room symbols
          pure (.subtree t :: as, room)
        else
          let (as, room) ← expandArgsOn expand room symbols
          pure (.terminal s :: as, room)

/-- Generate a tree that may use the variables in force. -/
def generateOn (g : Grammar K) (nt : String) : ScopeSampler K (Tree K) := do
  let (t, _) ← g.expandOn (g.maxDepth + 1) none nt
  pure t

mutual

/-- The log-probability of generating a tree with the variables in force. -/
def logProbabilityOn (g : Grammar K) : Tree K → Traversal K GrammarError Id K
  | .node nt name kind none =>
      Traversal.withScope fun scope => g.nodeLogProbability scope (.node nt name kind none)
  | .node nt name kind (some as) => do
      let lp ←
        Traversal.withScope fun scope => g.nodeLogProbability scope (.node nt name kind (some as))
      Traversal.below kind (g.addArgsOn lp as)

/-- Add the log-probabilities of the subtrees among the arguments, from left to right. -/
def addArgsOn (g : Grammar K) (lp : K) : List (Arg K) → Traversal K GrammarError Id K
  | [] => pure lp
  | .subtree t :: as => do
      let lp' ← g.logProbabilityOn t
      g.addArgsOn (lp + lp') as
  | .terminal _ :: as => g.addArgsOn lp as

end

end Grammar

namespace Tree

variable {K ε : Type} {m : Type → Type} [Monad m]

/-- What is done at each node: its place, the node itself and the scope in which it was made. -/
abbrev Visitor (K ε : Type) (m : Type → Type) := Place → Tree K → Scope K → ExceptT ε m Unit

mutual

/-- Visit the nodes of the tree at a place in pre-order, with the variables in force. -/
def visitOn (visit : Visitor K ε m) (p : Place) : Tree K → Traversal K ε m Unit
  | .node nt name kind none => Traversal.withScope (visit p (.node nt name kind none))
  | .node nt name kind (some as) => do
      Traversal.withScope (visit p (.node nt name kind (some as)))
      Traversal.below kind (visitArgsOn visit p 0 as)

/-- Visit the nodes of a list of arguments of the node at a place, whose first has position `i`. -/
def visitArgsOn (visit : Visitor K ε m) (p : Place) : Nat → List (Arg K) → Traversal K ε m Unit
  | _, [] => pure ()
  | i, .subtree t :: as => do
      visitOn visit (p ++ [i]) t
      visitArgsOn visit p (i + 1) as
  | i, .terminal _ :: as => visitArgsOn visit p (i + 1) as

end

/-- Visit the nodes of a tree in pre-order, with no variable in force at the root. -/
def iterate (visit : Visitor K ε m) (t : Tree K) : ExceptT ε m Unit :=
  ExceptT.mk do
    let (outcome, _) ← visitOn visit [] t []
    pure outcome

end Tree

end ScopedGrammar
