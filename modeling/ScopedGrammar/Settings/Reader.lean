import ScopedGrammar.Chain.Tempering
import ScopedGrammar.Grammar.Generation
import ScopedGrammar.Json.Basic
import ScopedGrammar.Move.Kernel
import ScopedGrammar.Posterior.Score

/-!
# Reading settings

Settings are written in JSON. A choice is the name of the alternative, or an object with that name
and what belongs to it; a name may begin in lower case. A record is an object, in which unknown
members are passed over and no known one may repeat, or an array of its fields in order, of which
those with a default may be left out at the end.

A kernel may hold others to any depth. A reader that ends in `Within?` opens no more containers
within each other than it is allowed to.
-/
namespace ScopedGrammar.Settings

/-- The number of containers that are opened within each other where settings are read from text. -/
def maxNesting : Nat := 127

/-- A finite number. -/
def float? : Json → Option Float
  | .number n => if Scalar.isInf n.toFloat then none else some n.toFloat
  | _ => none

/-- A list of which every element can be read. -/
def list? {α : Type} (read : Json → Option α) (j : Json) : Option (List α) := do
  let elements ← j.asArray?
  elements.mapM read

/-- The fields of a record, and whether they are given by position. -/
structure Fields where
  positional : Bool
  values : List (Option Json)

/-- The fields with the given names. -/
def fields? (names : List String) : Json → Option Fields
  | .array elements =>
      if names.length < elements.length then none
      else
        some ⟨true, elements.map some ++ List.replicate (names.length - elements.length) none⟩
  | .object members =>
      let keys := members.map (·.1)
      if keys.all Option.isSome && names.all (fun name => keys.count (some name) ≤ 1) then
        some ⟨false, names.map fun name => members.lookup (some name)⟩
      else none
  | _ => none

namespace Fields

/-- A field that has to be given. -/
def required {α : Type} (f : Fields) (i : Nat) (read : Json → Option α) : Option α := do
  let value ← f.values[i]?.join
  read value

/-- A field that has a default. -/
def withDefault {α : Type} (f : Fields) (i : Nat) (default : α) (read : Json → Option α) :
    Option α :=
  match f.values[i]?.join with
  | some value => read value
  | none => some default

/-- A field whose value may be absent: null, or left out of an object. -/
def optional {α : Type} (f : Fields) (i : Nat) (read : Json → Option α) : Option (Option α) :=
  match f.values[i]?.join with
  | some .null => some none
  | some value => (read value).map some
  | none => if f.positional then none else some none

end Fields

/-- The name of an alternative with what belongs to it, nothing if only the name is given. -/
def alternative? : Json → Option (String × Option Json)
  | .string (some name) => some (name, none)
  | .object [(some name, value)] => some (name, some value)
  | _ => none

/-- Nothing belongs to an alternative. -/
def isBare : Option Json → Bool
  | none => true
  | some j => j.isNull

def siteWeights? (j : Json) : Option (SiteWeights Float) := do
  match ← alternative? j with
  | ("Uniform", value) | ("uniform", value) => if isBare value then pure .uniform else none
  | ("Leaves", some value) | ("leaves", some value) => do
      let w ← float? value
      pure (.leaves w)
  | _ => none

/-- An alternative that stands for a kernel by itself. -/
def bareKernel? (name : String) : Option (Kernel Float) :=
  if name = "Regeneration" || name = "regeneration" then some .regeneration
  else if name = "Insert" || name = "insert" then some .insert
  else if name = "Delete" || name = "delete" then some .delete
  else if name = "Copy" || name = "copy" then some .copy
  else none

mutual

/-- A kernel, where so many containers may be opened. -/
def kernelWithin? : Nat → Json → Option (Kernel Float)
  | _, .string name => name.bind bareKernel?
  | room + 1, .object [(some name, value)] =>
      if name = "Mixture" || name = "mixture" then componentsWithin? room value
      else if value.isNull then bareKernel? name
      else none
  | _, _ => none

/-- The mixture of a list of components. -/
def componentsWithin? : Nat → Json → Option (Kernel Float)
  | room + 1, .array elements => do
      let components ← elements.mapM fun e => weightedKernelWithin? room e
      pure (.mixture components)
  | _, _ => none

/-- A kernel with its weight. -/
def weightedKernelWithin? : Nat → Json → Option (Float × Kernel Float)
  | room + 1, j => do
      let f ← fields? ["weight", "kernel"] j
      let weight ← f.required 0 float?
      let kernel ← f.required 1 fun k => kernelWithin? room k
      pure (weight, kernel)
  | 0, _ => none

end

/-- A proposer, where so many containers may be opened. -/
def proposerWithin? : Nat → Json → Option (Proposer Float)
  | room + 1, j => do
      let f ← fields? ["kernel", "resample", "max_attempts"] j
      let kernel ← f.required 0 (kernelWithin? room)
      let sites ← f.withDefault 1 .uniform siteWeights?
      let maxAttempts ← f.withDefault 2 Proposer.defaultAttempts Json.asNat?
      pure ⟨kernel, sites, maxAttempts⟩
  | 0, _ => none

def kernel? (j : Json) : Option (Kernel Float) := kernelWithin? j.nesting j

def weightedKernel? (j : Json) : Option (Float × Kernel Float) :=
  weightedKernelWithin? j.nesting j

def proposer? (j : Json) : Option (Proposer Float) := proposerWithin? j.nesting j

def temperatures? (j : Json) : Option (Temperatures Float) := do
  let f ← fields? ["prior", "likelihood", "acceptance"] j
  let prior ← f.required 0 float?
  let likelihood ← f.required 1 float?
  let acceptance ← f.required 2 float?
  pure ⟨prior, likelihood, acceptance⟩

def limit? (j : Json) : Option GenerationLimit := do
  match ← alternative? j with
  | ("TotalSize", some value) | ("totalsize", some value) => do
      let n ← value.asNat?
      pure (.totalSize n)
  | ("Depth", some value) | ("depth", some value) => do
      let d ← value.asNat?
      pure (.depth d)
  | _ => none

def ladder? (j : Json) : Option (LadderSpec Float) := do
  match ← alternative? j with
  | ("SizeAndMax", some (.array [size, highest])) => do
      let size ← size.asNat?
      let highest ← float? highest
      pure (.sizeAndMax size highest)
  | ("Explicit", some value) => do
      let ts ← list? float? value
      pure (.explicit ts)
  | _ => none

def binderSpec? (j : Json) : Option (BinderSpec Float) := do
  let f ← fields? ["bound_type", "bound_args", "prefix", "use_weight"] j
  let boundType ← f.required 0 Json.asString?
  let boundArgs ← f.optional 1 (list? Json.asString?)
  let stem ← f.required 2 Json.asString?
  let useWeight ← f.optional 3 float?
  pure ⟨boundType, boundArgs, stem, useWeight⟩

end ScopedGrammar.Settings
