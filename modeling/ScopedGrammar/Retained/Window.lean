import ScopedGrammar.Scalar.Basic

/-!
# Windows

A window holds the items that a stream has brought last, oldest first. Adding to a window that
holds as many as its size drops the oldest.
-/
namespace ScopedGrammar

/-- The latest items of a stream. -/
structure Window (α : Type) where
  size : Nat
  items : List α

namespace Window

variable {α : Type}

def empty (size : Nat) : Window α := ⟨size, []⟩

/-- Add an item; if just as many are held as the size says, the oldest goes. -/
def add (w : Window α) (a : α) : Window α :=
  { w with items := (if w.items.length = w.size then w.items.drop 1 else w.items) ++ [a] }

def count (w : Window α) : Nat := w.items.length

/-- The mean of the items, undefined if there are none. -/
def mean {K : Type} [Scalar K] (value : α → K) (w : Window α) : K :=
  if w.items.isEmpty then Scalar.nan
  else Scalar.sum (w.items.map value) / Scalar.ofNat w.items.length

/-- A success counts as one and a failure as zero. -/
def rate {K : Type} [Scalar K] (w : Window Bool) : K := w.mean fun b => if b then 1 else 0

end Window

end ScopedGrammar
