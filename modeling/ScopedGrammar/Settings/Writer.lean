import ScopedGrammar.Chain.Tempering
import ScopedGrammar.Decimal.Scientific
import ScopedGrammar.Grammar.Generation
import ScopedGrammar.Json.Basic
import ScopedGrammar.Move.Kernel
import ScopedGrammar.Posterior.Score

/-!
# Writing settings

Settings are written in JSON with the names that the reader takes. A real number is given as a
string with ten significant digits, a count as a number.
-/
namespace ScopedGrammar.Settings

/-- The number of digits after the point of a real number. -/
def places : Nat := 9

def ofFloat (x : Float) : Json := .str (Decimal.scientific places x)

/-- A value that may be absent. -/
def ofOption {α : Type} (write : α → Json) : Option α → Json
  | some a => write a
  | none => .null

def ofStrings (ss : List String) : Json := .array (ss.map .str)

/-- An alternative with what belongs to it. -/
def ofAlternative (name : String) (value : Json) : Json := .ofMembers [(name, value)]

def ofSiteWeights : SiteWeights Float → Json
  | .uniform => .str "Uniform"
  | .leaves w => ofAlternative "Leaves" (ofFloat w)

/-- A kernel with its weight, given how the kernel is written. -/
def ofComponent (weight : Float) (kernel : Json) : Json :=
  .ofMembers [("weight", ofFloat weight), ("kernel", kernel)]

mutual

def ofKernel : Kernel Float → Json
  | .regeneration => .str "Regeneration"
  | .insert => .str "Insert"
  | .delete => .str "Delete"
  | .copy => .str "Copy"
  | .mixture components => ofAlternative "Mixture" (.array (ofComponents components))

def ofComponents : List (Float × Kernel Float) → List Json
  | [] => []
  | (w, k) :: components => ofComponent w (ofKernel k) :: ofComponents components

end

def ofProposer (p : Proposer Float) : Json :=
  .ofMembers
    [("kernel", ofKernel p.kernel), ("resample", ofSiteWeights p.sites),
      ("max_attempts", .ofNat p.maxAttempts)]

def ofTemperatures (t : Temperatures Float) : Json :=
  .ofMembers
    [("prior", ofFloat t.prior), ("likelihood", ofFloat t.likelihood),
      ("acceptance", ofFloat t.acceptance)]

def ofLimit : GenerationLimit → Json
  | .totalSize n => ofAlternative "TotalSize" (.ofNat n)
  | .depth d => ofAlternative "Depth" (.ofNat d)

def ofLadder : LadderSpec Float → Json
  | .sizeAndMax size highest =>
      ofAlternative "SizeAndMax" (.array [.ofNat size, ofFloat highest])
  | .explicit ts => ofAlternative "Explicit" (.array (ts.map ofFloat))

def ofBinderSpec (b : BinderSpec Float) : Json :=
  .ofMembers
    [("bound_type", .str b.boundType), ("bound_args", ofOption ofStrings b.boundArgs),
      ("prefix", .str b.stem), ("use_weight", ofOption ofFloat b.useWeight)]

end ScopedGrammar.Settings
