import ScopedGrammar.Tree.Basic

/-!
# Places

A node is addressed by the argument positions on the way to it from the root, so its parent is
found by dropping the last of them, and a subtree grafted at a place stays below the same parent.
`subnodes` lists a tree in pre-order, as a walk does node by node; `get?` looks up the subtree at a
place, and `replace?` and `replace` exchange it; `variablesAbove` collects the variables that the
nodes on the way have introduced.
-/
namespace ScopedGrammar

/-- The argument positions from the root to a node. -/
abbrev Place := List Nat

/-- The place above, absent at the root. -/
def Place.parent? (p : Place) : Option Place := if p.isEmpty then none else some p.dropLast

/-- The places from the root down to a place, itself included. -/
def Place.upTo (p : Place) : List Place := (List.range (p.length + 1)).map p.take

namespace Tree

variable {K : Type}

/-- The subtree at an argument position of the root. -/
def child? (t : Tree K) (i : Nat) : Option (Tree K) := t.args[i]?.bind Arg.asTree?

/-- The subtree at a place. -/
def get? : Tree K → Place → Option (Tree K)
  | t, [] => some t
  | t, i :: p => (t.child? i).bind fun c => c.get? p

/-- The tree with another subtree at a place; absent if no node is there. -/
def replace? : Tree K → Place → Tree K → Option (Tree K)
  | _, [], r => some r
  | t, i :: p, r =>
      (t.child? i).bind fun c => (c.replace? p r).map fun c => t.withArgs (t.args.set i (.subtree c))

/-- Exchange the subtree at a place: what has been displaced, and the tree afterwards. If no node is
there nothing is displaced and the tree stays as it is. -/
def replace : Tree K → Place → Tree K → Option (Tree K) × Tree K
  | t, [], r => (some t, r)
  | t, i :: p, r =>
      match t.child? i with
      | some c =>
          let (displaced, c) := c.replace p r
          (displaced, t.withArgs (t.args.set i (.subtree c)))
      | none => (none, t)

/-- The rules of the variables introduced strictly above a place, outermost first. A way that
leaves the tree counts as far as it goes. -/
def variablesAbove : Tree K → Place → List (Rule K)
  | _, [] => []
  | t, i :: p =>
      t.introduced?.toList ++
        match t.child? i with
        | some c => c.variablesAbove p
        | none => []

mutual

/-- All nodes with their places, each before what is below it, from left to right. -/
def subnodes : Tree K → List (Place × Tree K)
  | .node nt name kind none => [([], .node nt name kind none)]
  | .node nt name kind (some as) => ([], .node nt name kind (some as)) :: subnodesFrom 0 as

/-- The nodes of a list of arguments whose first has position `i`. -/
def subnodesFrom : Nat → List (Arg K) → List (Place × Tree K)
  | _, [] => []
  | i, .subtree t :: as =>
      ((subnodes t).map fun (p, n) => (i :: p, n)) ++ subnodesFrom (i + 1) as
  | i, .terminal _ :: as => subnodesFrom (i + 1) as

end

/-- The next node of a walk and what is left to walk through. What is left is kept with its places,
what comes next first; a node that is passed leaves its children in its stead. -/
def nextOfWalk : List (Place × Tree K) → Option ((Place × Tree K) × List (Place × Tree K))
  | [] => none
  | (p, t) :: rest =>
      some ((p, t), (t.childrenWithIndex.map fun (i, c) => (p ++ [i], c)) ++ rest)

/-- The first nodes that a walk comes to, at most `n` of them. -/
def walk : Nat → List (Place × Tree K) → List (Place × Tree K)
  | 0, _ => []
  | n + 1, pending =>
      match nextOfWalk pending with
      | some (s, rest) => s :: walk n rest
      | none => []

/-- The places of all nodes. -/
def places (t : Tree K) : List Place := t.subnodes.map (·.1)

/-- Some node has the name. -/
def containsName (t : Tree K) (name : String) : Bool := t.subnodes.any fun s => s.2.name == name

end Tree

end ScopedGrammar
