import ScopedGrammar.NameSupply

/-!
# Listings

A listing yields its items one after the other, each only when it is asked for, and may take fresh
names on the way. A list that is far too long to be written out can so be begun. Whoever reads the
listing may take names in between, so each step starts from the supply as it is then.
-/
namespace ScopedGrammar

/-- What a listing comes to: its end, or an item and how to go on. The supply of names is the one
reached. -/
inductive Listing (α : Type) where
  | done (s : NameSupply)
  | item (a : α) (s : NameSupply) (rest : NameSupply → Listing α)

/-- A listing that has not been begun. -/
abbrev Lister (α : Type) := NameSupply → Listing α

namespace Listing

variable {α β : Type}

/-- One listing after the other. -/
def append : Listing α → Lister α → Listing α
  | done s, next => next s
  | item a s rest, next => item a s fun s => (rest s).append next

/-- The listings for all items, one after the other. -/
def flatMap : Listing α → (α → Lister β) → Listing β
  | done s, _ => done s
  | item a s rest, f =>
      match f a s with
      | done s => (rest s).flatMap f
      | item b s others => item b s fun s => (others s).append fun s => (rest s).flatMap f

/-- Change each item. -/
def map (f : α → β) : Listing α → Listing β
  | done s => done s
  | item a s rest => item (f a) s fun s => (rest s).map f

/-- All items, where nobody else takes names in between. -/
def toList : Listing α → List α
  | done _ => []
  | item a s rest => a :: (rest s).toList

end Listing

namespace Lister

variable {α β : Type}

def nil : Lister α := .done

def singleton (a : α) : Lister α := fun s => .item a s .done

/-- Begin with a computation that takes names. -/
def naming (x : Naming α) (f : α → Lister β) : Lister β := fun s => f (x s).1 (x s).2

/-- The listings for the members of a list, one after the other. -/
def concat (f : α → Lister β) : List α → Lister β
  | [], s => .done s
  | a :: as, s =>
      match f a s with
      | .done s => concat f as s
      | .item b s rest => .item b s fun s => (rest s).append (concat f as)

/-- The listings for so many numbers from a first one on, one after the other. -/
def ascending (f : Nat → Lister β) (first : Nat) : Nat → Lister β
  | 0, s => .done s
  | count + 1, s =>
      match f first s with
      | .done s => ascending f (first + 1) count s
      | .item b s rest => .item b s fun s => (rest s).append (ascending f (first + 1) count)

theorem concat_cons (f : α → Lister β) (a : α) (as : List α) (s : NameSupply) :
    concat f (a :: as) s = (f a s).append (concat f as) := by
  rw [concat]
  cases f a s <;> rfl

/-- At most `n` items in front of which the taken ones stand, the latest first, and what is left of
the listing. -/
def takeOnto (taken : List α) : Nat → Lister α → NameSupply → List α × Lister α × NameSupply
  | 0, l, s => (taken.reverse, l, s)
  | n + 1, l, s =>
      match l s with
      | .done s => (taken.reverse, nil, s)
      | .item a s rest => takeOnto (a :: taken) n rest s

/-- At most `n` items, and what is left of the listing. -/
def take (n : Nat) (l : Lister α) (s : NameSupply) : List α × Lister α × NameSupply :=
  takeOnto [] n l s

/-- The number of items, counted on from `counted` by at most `n`. -/
def countOnto (counted : Nat) : Nat → Lister α → NameSupply → Nat × NameSupply
  | 0, _, s => (counted, s)
  | n + 1, l, s =>
      match l s with
      | .done s => (counted, s)
      | .item _ s rest => countOnto (counted + 1) n rest s

/-- The number of items, counted up to `n`. -/
def countUpTo (n : Nat) (l : Lister α) (s : NameSupply) : Nat × NameSupply := countOnto 0 n l s

end Lister

end ScopedGrammar
