import ScopedGrammar.Rule
import ScopedGrammar.Text.Quoted

/-!
# Errors

A tree may disagree with the grammar that it is read in, a packed text may be none of a tree, and
sampling may fail. The first two are mistakes that no other draw mends; a sampling failure is
recoverable, since a fresh draw may avoid it. Each error names its cause, and its wording is found
in one place.
-/
namespace ScopedGrammar

/-- Why a text is not the packed form of a tree, or a tree has none. -/
inductive PackError where
  /-- No character stands for a rule with this index. -/
  | overflow (index : Nat)
  | unknownCharacter (c : Char)
  /-- No visible rule has this index. -/
  | unknownIndex (index : Nat)
  /-- The rule with the index given expands another nonterminal than the one needed. -/
  | mismatch (expected found : String)
  | truncated
  /-- The tree is complete before the text ends. -/
  | trailing (count : Nat)
  deriving Repr, DecidableEq

def PackError.message : PackError → String
  | .overflow i => "rule index " ++ toString i ++ " exceeds the alphabet"
  | .unknownCharacter c => "character " ++ Text.quoteChar c ++ " is not in the alphabet"
  | .unknownIndex i => "no visible rule has index " ++ toString i
  | .mismatch expected found =>
      "expected a rule for " ++ expected ++ ", found one for " ++ found
  | .truncated => "input ended early"
  | .trailing n => toString n ++ " unread characters"

/-- How a tree and a grammar may disagree. -/
inductive GrammarError where
  /-- Not exactly one visible rule has the signature of a node, but `count` of them. -/
  | noUniqueRule (signature : Signature) (count : Nat)
  /-- A variable is used outside the binder that introduces it. -/
  | scopeViolation (name : String)
  | unknownNonterminal (name : String)
  /-- No node lives at the place. -/
  | invalidPlace (place : List Nat)
  | pack (e : PackError)
  deriving Repr, DecidableEq

def GrammarError.message : GrammarError → String
  | .noUniqueRule s count => toString count ++ " rules match signature " ++ s.text
  | .scopeViolation name => "bound variable " ++ name ++ " used outside its binder"
  | .unknownNonterminal nt => "unknown nonterminal " ++ nt
  | .invalidPlace p =>
      "no node at place [" ++ ", ".intercalate (p.map fun i => toString i) ++ "]"
  | .pack e => "pack error: " ++ e.message

/-- A draw without a distribution to draw from. -/
inductive NoDistribution where
  /-- The weights of a weighted draw have no finite sum. -/
  | infiniteTotal
  /-- A probability lies outside the unit interval. -/
  | invalidProbability
  deriving Repr, DecidableEq

/-- Why sampling may fail. -/
inductive SampleError where
  | grammar (e : GrammarError)
  /-- A tree grew beyond a limit on its depth or its number of nodes. -/
  | sizeExceeded
  /-- There was nothing of positive weight to choose. -/
  | exhausted
  /-- There was no place for an edit. -/
  | proposalFailed
  /-- A draw was asked for that is none. -/
  | noDistribution (cause : NoDistribution)
  deriving Repr, DecidableEq

namespace SampleError

/-- A fresh draw may avoid the failure. -/
def isRecoverable : SampleError → Bool
  | sizeExceeded | exhausted | proposalFailed => true
  | grammar _ | noDistribution _ => false

def message : SampleError → String
  | grammar e => "grammar error: " ++ e.message
  | sizeExceeded => "exceeded maximum size"
  | exhausted => "failed to sample (options exhausted)"
  | proposalFailed => "proposal failed"
  | noDistribution .infiniteTotal => "weights without a finite sum"
  | noDistribution .invalidProbability => "probability outside the unit interval"

end SampleError

end ScopedGrammar
