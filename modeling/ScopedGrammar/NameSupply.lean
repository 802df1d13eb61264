/-!
# Fresh variable names

Every binder that is used introduces a variable with a name of its own. A supply counts the names
that it has issued; the next name carries that count, so no name is issued twice.
-/
namespace ScopedGrammar

/-- The number of names issued so far. -/
structure NameSupply where
  issued : Nat
  deriving Repr, DecidableEq

namespace NameSupply

/-- A supply that has issued nothing. -/
def initial : NameSupply := ⟨0⟩

/-- The name with a number. -/
def nameOf (n : Nat) : String := "bv__" ++ toString n

/-- Issue the next name. -/
def next (s : NameSupply) : String × NameSupply := (nameOf s.issued, ⟨s.issued + 1⟩)

end NameSupply

/-- A computation that may introduce variables. -/
abbrev Naming := StateM NameSupply

/-- Take a fresh name. -/
def freshName : Naming String := fun s => s.next

end ScopedGrammar
