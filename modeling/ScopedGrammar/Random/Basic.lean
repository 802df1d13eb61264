import ScopedGrammar.Scalar.Basic

/-!
# Random computations

A random computation is a tree of draws: it ends in a value, or makes a draw and goes on with its
outcome. What a draw means is left to the reader of the tree. A stream of random words makes it
run; the probabilities of the outcomes make it a distribution.

A draw is made only where its distribution exists, so an index drawn by weight comes from a list
that is not empty, and a uniform draw has at least one outcome.
-/
namespace ScopedGrammar

/-- Which part of a random word a uniform draw is made from. -/
inductive Reduction where
  /-- The upper half of a word is enough: the choice of an element. -/
  | halfWord
  /-- The whole word counts: the choice of a position. -/
  | fullWord
  deriving Repr, DecidableEq

/-- How a random word is compared with the probability of success. -/
inductive Trial where
  /-- The word is read as a fraction in `[0, 1)`, and success means to fall below the bound, which
  may be any number. -/
  | fraction
  /-- The bound is a probability, taken to the full width of the word; certainty needs no word. -/
  | bias
  deriving Repr, DecidableEq

/-- A computation of an `α` that may make random draws. -/
inductive Rand (K : Type) (α : Type) where
  | done (a : α)
  /-- Draw an index in proportion to the weights. -/
  | weighted (weights : List K) (nonempty : weights ≠ []) (next : Fin weights.length → Rand K α)
  /-- Draw one of `n` indices, each as likely as the other. -/
  | uniform (how : Reduction) (n : Nat) (pos : 0 < n) (next : Fin n → Rand K α)
  /-- Draw success with the given probability. -/
  | chance (how : Trial) (p : K) (next : Bool → Rand K α)

namespace Rand

variable {K α β γ : Type}

/-- Go on with the result of a computation. -/
def bind : Rand K α → (α → Rand K β) → Rand K β
  | done a, f => f a
  | weighted ws h next, f => weighted ws h fun i => (next i).bind f
  | uniform how n h next, f => uniform how n h fun i => (next i).bind f
  | chance how p next, f => chance how p fun b => (next b).bind f

instance : Monad (Rand K) where
  pure := done
  bind := bind

@[simp] theorem pure_eq (a : α) : (pure a : Rand K α) = done a := rfl

@[simp] theorem bind_eq (x : Rand K α) (f : α → Rand K β) : x >>= f = x.bind f := rfl

@[simp] theorem done_bind (a : α) (f : α → Rand K β) : (done a).bind f = f a := rfl

@[simp] theorem bind_done (x : Rand K α) : x.bind done = x := by
  induction x with
  | done a => rfl
  | weighted ws h next ih => simp [bind, ih]
  | uniform how n h next ih => simp [bind, ih]
  | chance how p next ih => exact congrArg (chance how p) (funext ih)

theorem bind_assoc (x : Rand K α) (f : α → Rand K β) (g : β → Rand K γ) :
    (x.bind f).bind g = x.bind fun a => (f a).bind g := by
  induction x with
  | done a => rfl
  | weighted ws h next ih => simp [bind, ih]
  | uniform how n h next ih => simp [bind, ih]
  | chance how p next ih => exact congrArg (chance how p) (funext ih)

instance : LawfulMonad (Rand K) := LawfulMonad.mk' (Rand K)
  (fun x => by simp [Functor.map])
  (fun _ _ => rfl)
  bind_assoc

end Rand

end ScopedGrammar
