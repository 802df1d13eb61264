import ScopedGrammar.Random.Sampler
import ScopedGrammar.Tree.Canonical

/-!
# Partial trees

A partial tree has some of its subtrees cut off; the nonterminal that a subtree expanded stays
behind as a terminal. As a pattern it matches a tree that agrees with it wherever it was not cut,
so a tree is matched by every partial tree made from it.
-/
namespace ScopedGrammar.Tree

variable {K : Type}

section Cutting

variable [Scalar K]

mutual

/-- Cut off each subtree below the root with a probability, from left to right; what is kept is
cut in turn. -/
def randomPartial (p : K) : Tree K → Sampler K (Tree K)
  | .node nt name kind none => pure (.node nt name kind none)
  | .node nt name kind (some as) => do
      let as ← randomPartialArgs p as
      pure (.node nt name kind (some as))

def randomPartialArgs (p : K) : List (Arg K) → Sampler K (List (Arg K))
  | [] => pure []
  | .subtree t :: as => do
      let a ← if ← coin p then pure (.terminal t.nonterminal) else do
        let t ← randomPartial p t
        pure (.subtree t)
      let as ← randomPartialArgs p as
      pure (a :: as)
  | .terminal s :: as => do
      let as ← randomPartialArgs p as
      pure (.terminal s :: as)

end

end Cutting

mutual

/-- A node pattern matches a tree at the root: nonterminal, name and arguments agree. -/
def matchesTree : Tree K → Tree K → Bool
  | .node nt name _ none, .node nt' name' _ none => nt == nt' && name == name'
  | .node nt name _ (some as), .node nt' name' _ (some bs) =>
      nt == nt' && name == name' && matchesArgs as bs
  | .node _ _ _ none, .node _ _ _ (some _) => false
  | .node _ _ _ (some _), .node _ _ _ none => false

/-- Arguments match one by one. A terminal in the pattern matches every subtree that expands it. -/
def matchesArgs : List (Arg K) → List (Arg K) → Bool
  | [], [] => true
  | .subtree t :: as, .subtree q :: bs => matchesTree t q && matchesArgs as bs
  | .subtree t :: as, .terminal s :: bs => s == t.nonterminal && matchesArgs as bs
  | .terminal s :: as, .terminal s' :: bs => s == s' && matchesArgs as bs
  | .terminal _ :: _, .subtree _ :: _ => false
  | [], _ :: _ => false
  | _ :: _, [] => false

end

/-- The pattern matches the tree at the root; a terminal matches every tree that expands it. -/
def matchesRoot (t : Tree K) : Arg K → Bool
  | .terminal s => s == t.nonterminal
  | .subtree q => matchesTree t q

/-- The pattern matches some subtree at its root. -/
def hasMatch (t : Tree K) (pattern : Arg K) : Bool :=
  t.subnodes.any fun s => s.2.matchesRoot pattern

mutual

/-- Cut off every leaf; a tree that is itself a leaf leaves its nonterminal behind. -/
def trimLeaves : Tree K → Arg K
  | .node nt _ _ none => .terminal nt
  | .node nt name kind (some as) =>
      if (as.filterMap Arg.asTree?).isEmpty then .terminal nt
      else .subtree (.node nt name kind (some (trimLeavesArgs as)))

def trimLeavesArgs : List (Arg K) → List (Arg K)
  | [] => []
  | .subtree t :: as => trimLeaves t :: trimLeavesArgs as
  | .terminal s :: as => .terminal s :: trimLeavesArgs as

end

end ScopedGrammar.Tree
