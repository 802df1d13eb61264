import ScopedGrammar.Tree.Canonical

/-!
# Where trees differ

An edit replaces one subtree. If it turns one tree into another, it was made at the place where
the trees begin to differ or at one above it. That place is found by going down as long as the
nodes agree and the trees differ in a single argument.
-/
namespace ScopedGrammar.Tree

variable {K : Type}

/-- The argument positions below a place of the first tree at which the trees differ. -/
def differingChildren (s t n : Tree K) (p : Place) : List Nat :=
  (n.childrenWithIndex.map (·.1)).filter fun i => s.canonicalAt (p ++ [i]) != t.canonicalAt (p ++ [i])

/-- Go down from a place at which the trees differ, where `n` is the node of the first tree
there. -/
def descend (s t : Tree K) : Nat → Tree K → Place → Option Place
  | 0, _, p => some p
  | levels + 1, n, p =>
      match t.get? p with
      | none => none
      | some n' =>
          if s.headAt p != t.headAt p then some p
          else
            match s.differingChildren t n p with
            | [i] =>
                match n.child? i, n'.child? i with
                | some c, some _ => descend s t levels c (p ++ [i])
                | _, _ => some p
            | _ => some p

/-- The deepest place at which one edit can account for all differences of two trees; absent if
the trees are alike. Each step goes down by one level of the first tree. -/
def leastCommonDifference (s t : Tree K) : Option Place :=
  if s.alike t then none else descend s t (s.depth + 1) s []

/-- The places at which an edit may have turned the first tree into the second: any place, if they
are alike. -/
def editSites (s t : Tree K) : List Place :=
  match s.leastCommonDifference t with
  | none => s.places
  | some p => p.upTo

/-- Whether an edit at a place may account for the differences of two trees that begin at the
first one, if they differ at all. -/
def mayAccount (difference : Option Place) (p : Place) : Bool :=
  match difference with
  | none => true
  | some q => p.isPrefixOf q

end ScopedGrammar.Tree
