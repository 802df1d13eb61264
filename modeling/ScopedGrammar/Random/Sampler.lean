import ScopedGrammar.Error
import ScopedGrammar.NameSupply
import ScopedGrammar.Random.Basic

/-!
# Samplers

A sampler makes random draws, takes fresh names and may fail. A failure ends it, but the words
drawn and the names taken until then stay used. The choices below take nothing where nothing can
be chosen: an empty list, a list with a negative or undefined weight, and one whose weights are
all zero offer no index.
-/
namespace ScopedGrammar

/-- A random computation that takes fresh names and may fail. -/
abbrev Sampler (K : Type) := ExceptT SampleError (StateT NameSupply (Rand K))

namespace Sampler

variable {K : Type} {α : Type}

/-- A draw as a sampler. -/
def ofRand (x : Rand K α) : Sampler K α := fun s => x.bind fun a => .done (.ok a, s)

/-- Take names only. -/
def ofNaming (x : Naming α) : Sampler K α := fun s =>
  let (a, s) := x s
  .done (.ok a, s)

/-- Take names and possibly fail. -/
def ofNamingExcept (x : ExceptT SampleError Naming α) : Sampler K α := fun s => .done (x s)

/-- Go on with a result of the grammar. -/
def ofGrammar (x : Except GrammarError α) : Sampler K α :=
  match x with
  | .ok a => pure a
  | .error e => throw (.grammar e)

/-- Go on with a value, or fail if there is none. -/
def getOrFail (e : SampleError) (x : Option α) : Sampler K α :=
  match x with
  | some a => pure a
  | none => throw e

end Sampler

/-- What a list of weights has to offer to a draw by weight. -/
inductive Offer where
  | nothing
  | unbounded
  | proper
  deriving Repr, DecidableEq

section Choices

variable {K : Type} [Scalar K] {α : Type}

/-- A list of weights offers an index if it is not empty, none of its members is negative or
undefined, and their sum is neither zero nor infinite. -/
def offer (weights : List K) : Offer :=
  if weights.isEmpty || weights.any (fun w => !Scalar.le 0 w) || Scalar.sum weights == 0 then
    .nothing
  else if Scalar.isFinite (Scalar.sum weights) then .proper
  else .unbounded

theorem ne_nil_of_offer {weights : List K} (h : offer weights = .proper) : weights ≠ [] := by
  rintro rfl
  simp [offer] at h

/-- Draw an index in proportion to the weights, if they offer one. -/
def weightedIndex (weights : List K) : Sampler K (Option (Fin weights.length)) :=
  match h : offer weights with
  | .nothing => pure none
  | .unbounded => throw (.noDistribution .infiniteTotal)
  | .proper => Sampler.ofRand (.weighted weights (ne_nil_of_offer h) fun i => .done (some i))

/-- Draw an element in proportion to its weight. -/
def weightedChoice (weight : α → K) (xs : List α) : Sampler K (Option α) := do
  let i? ← weightedIndex (xs.map weight)
  pure (i?.map fun i => xs.get (i.cast (List.length_map weight)))

/-- Draw an index below `n`. -/
def uniformIndex (how : Reduction) (n : Nat) (pos : 0 < n) : Sampler K (Fin n) :=
  Sampler.ofRand (.uniform how n pos .done)

/-- Draw an element, each as likely as the other. -/
def uniformChoice (xs : List α) : Sampler K (Option α) :=
  if h : 0 < xs.length then do
    let i ← uniformIndex .halfWord xs.length h
    pure (some (xs.get i))
  else pure none

/-- Succeed with a probability, which has to lie in the unit interval. -/
def coin (p : K) : Sampler K Bool :=
  if Scalar.le 0 p && Scalar.le p 1 then Sampler.ofRand (.chance .bias p .done)
  else throw (.noDistribution .invalidProbability)

/-- Draw a fraction and tell whether it lies below a bound. -/
def fractionBelow (bound : K) : Rand K Bool := .chance .fraction bound .done

end Choices

end ScopedGrammar
