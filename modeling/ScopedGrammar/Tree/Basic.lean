import ScopedGrammar.Rule

/-!
# Expression trees

A node expands a nonterminal by a named rule; its arguments are subtrees or terminal symbols. A
node without an argument list is a terminal, one with an empty list a call without arguments. A
binder carries the rule of the variable that it introduced, and a variable use is named after its
variable.
-/
namespace ScopedGrammar

/-- How a node came about. -/
inductive NodeKind (K : Type) where
  | plain
  /-- The node introduced a variable, for which this rule stands. -/
  | binder (introduced : Rule K)
  | variableUse
  deriving Repr

mutual

/-- An expression tree. -/
inductive Tree (K : Type) where
  | node (nonterminal name : String) (kind : NodeKind K) (args : Option (List (Arg K)))

/-- An argument of a node. -/
inductive Arg (K : Type) where
  | subtree (t : Tree K)
  | terminal (symbol : String)

end

instance {K : Type} : Inhabited (Tree K) := ⟨.node "" "" .plain none⟩

namespace Tree

variable {K : Type}

/-- The nonterminal that the root expands. -/
def nonterminal : Tree K → String
  | .node nt _ _ _ => nt

def name : Tree K → String
  | .node _ name _ _ => name

def kind : Tree K → NodeKind K
  | .node _ _ kind _ => kind

/-- The argument list of the root, absent for a terminal. -/
def args? : Tree K → Option (List (Arg K))
  | .node _ _ _ args => args

/-- The arguments of the root, none for a terminal. -/
def args (t : Tree K) : List (Arg K) := t.args?.getD []

/-- The same root over other arguments. -/
def withArgs (args : List (Arg K)) : Tree K → Tree K
  | .node nt name kind _ => .node nt name kind (some args)

end Tree

namespace Arg

variable {K : Type}

def asTree? : Arg K → Option (Tree K)
  | .subtree t => some t
  | .terminal _ => none

/-- The symbol that an argument fills in: the nonterminal of a subtree, or the terminal itself. -/
def symbol : Arg K → String
  | .subtree t => t.nonterminal
  | .terminal s => s

/-- What an argument is sorted by: the name of a subtree's root, or the terminal itself. -/
def label : Arg K → String
  | .subtree t => t.name
  | .terminal s => s

end Arg

namespace Tree

variable {K : Type}

/-- What identifies the rule that produced the root. -/
def signature (t : Tree K) : Signature :=
  ⟨t.nonterminal, t.name, t.args?.map (·.map Arg.symbol)⟩

/-- The number of arguments of the root, absent for a terminal. -/
def arity? (t : Tree K) : Option Nat := t.args?.map List.length

/-- The rule of the variable that the root introduces, if it is a binder. -/
def introduced? (t : Tree K) : Option (Rule K) :=
  match t.kind with
  | .binder v => some v
  | _ => none

def isBinder (t : Tree K) : Bool := t.introduced?.isSome

def isVariableUse (t : Tree K) : Bool :=
  match t.kind with
  | .variableUse => true
  | _ => false

/-- The subtrees among the arguments of the root. -/
def children (t : Tree K) : List (Tree K) := t.args.filterMap Arg.asTree?

/-- The subtrees among a list of arguments, each with its position, counted from `i`. -/
def subtreesFrom : Nat → List (Arg K) → List (Nat × Tree K)
  | _, [] => []
  | i, .subtree t :: as => (i, t) :: subtreesFrom (i + 1) as
  | i, .terminal _ :: as => subtreesFrom (i + 1) as

/-- The subtrees among the arguments of the root, each with its position. -/
def childrenWithIndex (t : Tree K) : List (Nat × Tree K) := subtreesFrom 0 t.args

def isLeaf (t : Tree K) : Bool := t.children.isEmpty

mutual

def countNodes : Tree K → Nat
  | .node _ _ _ none => 1
  | .node _ _ _ (some as) => 1 + countNodesArgs as

/-- The number of nodes in a list of arguments. -/
def countNodesArgs : List (Arg K) → Nat
  | [] => 0
  | .subtree t :: as => countNodes t + countNodesArgs as
  | .terminal _ :: as => countNodesArgs as

end

mutual

/-- The number of leaves below the arguments of the root; without any the root is a leaf. -/
def countLeaves : Tree K → Nat
  | .node _ _ _ none => 1
  | .node _ _ _ (some as) => if (as.filterMap Arg.asTree?).isEmpty then 1 else countLeavesArgs as

/-- The number of leaves in a list of arguments. -/
def countLeavesArgs : List (Arg K) → Nat
  | [] => 0
  | .subtree t :: as => countLeaves t + countLeavesArgs as
  | .terminal _ :: as => countLeavesArgs as

end

mutual

/-- The number of levels below the root: a leaf has depth `0`. -/
def depth : Tree K → Nat
  | .node _ _ _ none => 0
  | .node _ _ _ (some as) => heightArgs as

/-- The number of levels in a list of arguments. -/
def heightArgs : List (Arg K) → Nat
  | [] => 0
  | .subtree t :: as => max (depth t + 1) (heightArgs as)
  | .terminal _ :: as => heightArgs as

end

mutual

/-- For every node with one of the given names the labels of its arguments ascend. One of two
trees that differ by the order of such arguments is thereby told from the other. -/
def isCanonicallyOrdered (symmetric : List String) : Tree K → Bool
  | .node _ _ _ none => true
  | .node _ name _ (some as) =>
      (!symmetric.contains name || ascending (as.map Arg.label)) &&
        areCanonicallyOrdered symmetric as
where
  /-- No label is above the one after it. -/
  ascending (labels : List String) : Bool :=
    (labels.zip labels.tail).all fun pair => !decide (pair.2 < pair.1)

def areCanonicallyOrdered (symmetric : List String) : List (Arg K) → Bool
  | [] => true
  | .subtree t :: as => isCanonicallyOrdered symmetric t && areCanonicallyOrdered symmetric as
  | .terminal _ :: as => areCanonicallyOrdered symmetric as

end

end Tree

end ScopedGrammar
