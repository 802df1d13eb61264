import ScopedGrammar.Scalar.Basic

/-!
# Leaderboards

A leaderboard keeps the best distinct items offered to it, ordered by falling score; of equal
scores the one offered first comes first. Items with an undefined score are not kept. The items are
kept a second time without order, where they are looked up.
-/
namespace ScopedGrammar

/-- The best items offered so far. -/
structure Leaderboard (α K : Type) where
  capacity : Nat
  /-- The items with their scores, the best first. -/
  entries : List (α × K)
  /-- The items alone, as a set. -/
  seen : List α

namespace Leaderboard

variable {α K : Type}

def empty (capacity : Nat) : Leaderboard α K := ⟨capacity, [], []⟩

def size (b : Leaderboard α K) : Nat := b.entries.length

def best? (b : Leaderboard α K) : Option α := b.entries.head?.map (·.1)

def contains [BEq α] (b : Leaderboard α K) (a : α) : Bool := b.seen.any (· == a)

/-- Drop the last entry of a board that holds more than it has room for. -/
def trim [BEq α] (b : Leaderboard α K) : Leaderboard α K :=
  if b.capacity < b.entries.length then
    match b.entries.getLast? with
    | some worst =>
        { b with entries := b.entries.dropLast, seen := b.seen.filter fun a => !(a == worst.1) }
    | none => b
  else b

variable [Scalar K]

/-- Put an entry before the first one that is not as good. -/
def place (entry : α × K) : List (α × K) → List (α × K)
  | [] => [entry]
  | e :: es => if Scalar.le entry.2 e.2 then e :: place entry es else entry :: e :: es

/-- Put an entry in its place, be there room or not. -/
def insert (entry : α × K) (b : Leaderboard α K) : Leaderboard α K :=
  { b with entries := place entry b.entries, seen := entry.1 :: b.seen }

/-- The board is full and its last entry is not beaten. -/
def holdsOff (b : Leaderboard α K) (score : K) : Bool :=
  b.entries.length == b.capacity &&
    match b.entries.getLast? with
    | some worst => Scalar.le score worst.2
    | none => false

/-- Offer an item. The answer tells whether it was added. -/
def add [BEq α] (b : Leaderboard α K) (a : α) (score : K) : Leaderboard α K × Bool :=
  if b.capacity == 0 || Scalar.isNaN score || b.contains a || b.holdsOff score then (b, false)
  else ((b.insert (a, score)).trim, true)

end Leaderboard

end ScopedGrammar
