import ScopedGrammar.Error
import ScopedGrammar.Tree.Place

/-!
# Scopes

A scope holds the rules of the variables that may be used at some point of a tree, outermost
first. Below a binder the scope is longer by the rule of its variable. The scope of a node within
a tree holds the variables that the nodes above it have introduced.
-/
namespace ScopedGrammar

/-- The rules of the variables in force, innermost last. -/
abbrev Scope (K : Type) := List (Rule K)

namespace Scope

variable {K : Type}

/-- The variables that can stand for a nonterminal. -/
def rulesOf (s : Scope K) (nt : String) : List (Rule K) := s.filter fun r => r.nonterminal == nt

/-- A variable of that name is in force. -/
def binds (s : Scope K) (name : String) : Bool := s.any fun r => r.name == name

/-- The variables whose rule has the signature. -/
def withSignature (s : Scope K) (sig : Signature) : List (Rule K) :=
  s.filter fun r => r.signature = sig

/-- The scope below a node of some kind. -/
def below (s : Scope K) : NodeKind K → Scope K
  | .binder v => s ++ [v]
  | _ => s

/-- A scope is got back from the one below a node by its length. -/
@[simp] theorem take_below (s : Scope K) (kind : NodeKind K) :
    (s.below kind).take s.length = s := by
  cases kind <;> simp [below]

/-- The scope in which the node at a place was made. -/
def above (root : Tree K) (p : Place) : Scope K := root.variablesAbove p

/-- The scope below the node at a place. -/
def through (root : Tree K) (p : Place) : Scope K :=
  root.variablesAbove p ++ ((root.get? p).bind Tree.introduced?).toList

/-- The scope below the root of a tree. -/
def enter (root : Tree K) : Scope K := root.introduced?.toList

end Scope

end ScopedGrammar
