import ScopedGrammar.Chain.Basic
import ScopedGrammar.Chain.Pool
import ScopedGrammar.Chain.Tempering
import ScopedGrammar.Decimal.Reader
import ScopedGrammar.Decimal.Scientific
import ScopedGrammar.Decimal.Shortest
import ScopedGrammar.Grammar.Enumeration
import ScopedGrammar.Grammar.Packed
import ScopedGrammar.Grammar.Traversal
import ScopedGrammar.Json.Reader
import ScopedGrammar.Json.Writer
import ScopedGrammar.Move.Kernel
import ScopedGrammar.Posterior.Stock
import ScopedGrammar.Proofs.Chain.Acceptance
import ScopedGrammar.Proofs.Chain.Accounts
import ScopedGrammar.Proofs.Chain.Balance
import ScopedGrammar.Proofs.Chain.Best
import ScopedGrammar.Proofs.Chain.Calls
import ScopedGrammar.Proofs.Chain.Closure
import ScopedGrammar.Proofs.Chain.Defined
import ScopedGrammar.Proofs.Chain.Exchange
import ScopedGrammar.Proofs.Chain.Invariant
import ScopedGrammar.Proofs.Chain.Journey
import ScopedGrammar.Proofs.Chain.Onward
import ScopedGrammar.Proofs.Chain.Patience
import ScopedGrammar.Proofs.Chain.Round
import ScopedGrammar.Proofs.Chain.Rounds
import ScopedGrammar.Proofs.Chain.Score
import ScopedGrammar.Proofs.Chain.SliceReports
import ScopedGrammar.Proofs.Chain.Slices
import ScopedGrammar.Proofs.Chain.Stale
import ScopedGrammar.Proofs.Chain.Step
import ScopedGrammar.Proofs.Chain.Stuck
import ScopedGrammar.Proofs.Chain.Tempering
import ScopedGrammar.Proofs.Chain.Turns
import ScopedGrammar.Proofs.Grammar.Alignment
import ScopedGrammar.Proofs.Grammar.Building
import ScopedGrammar.Proofs.Grammar.DepthMass
import ScopedGrammar.Proofs.Grammar.Derivation
import ScopedGrammar.Proofs.Grammar.Distribution
import ScopedGrammar.Proofs.Grammar.Enumeration
import ScopedGrammar.Proofs.Grammar.FiniteScore
import ScopedGrammar.Proofs.Grammar.Freshness
import ScopedGrammar.Proofs.Grammar.Generated
import ScopedGrammar.Proofs.Grammar.Guarantees
import ScopedGrammar.Proofs.Grammar.Limit
import ScopedGrammar.Proofs.Grammar.Lookup
import ScopedGrammar.Proofs.Grammar.Mass
import ScopedGrammar.Proofs.Grammar.Numbering
import ScopedGrammar.Proofs.Grammar.Origins
import ScopedGrammar.Proofs.Grammar.Outcomes
import ScopedGrammar.Proofs.Grammar.Packing
import ScopedGrammar.Proofs.Grammar.Plain
import ScopedGrammar.Proofs.Grammar.PrefixFree
import ScopedGrammar.Proofs.Grammar.Rejection
import ScopedGrammar.Proofs.Grammar.Renamed
import ScopedGrammar.Proofs.Grammar.Renewal
import ScopedGrammar.Proofs.Grammar.Renormalization
import ScopedGrammar.Proofs.Grammar.Replacement
import ScopedGrammar.Proofs.Grammar.Scoring
import ScopedGrammar.Proofs.Grammar.Shallowest
import ScopedGrammar.Proofs.Grammar.Summation
import ScopedGrammar.Proofs.Grammar.Traversal
import ScopedGrammar.Proofs.Grammar.Truncation
import ScopedGrammar.Proofs.Grammar.Unpacking
import ScopedGrammar.Proofs.Listing
import ScopedGrammar.Proofs.Move.Accuracy
import ScopedGrammar.Proofs.Move.Around
import ScopedGrammar.Proofs.Move.Ceiling
import ScopedGrammar.Proofs.Move.Closure
import ScopedGrammar.Proofs.Move.Copying
import ScopedGrammar.Proofs.Move.Deletion
import ScopedGrammar.Proofs.Move.Difference
import ScopedGrammar.Proofs.Move.Enclosing
import ScopedGrammar.Proofs.Move.Ergodic
import ScopedGrammar.Proofs.Move.Filling
import ScopedGrammar.Proofs.Move.FiniteScore
import ScopedGrammar.Proofs.Move.Flattening
import ScopedGrammar.Proofs.Move.Graft
import ScopedGrammar.Proofs.Move.Insertion
import ScopedGrammar.Proofs.Move.Inverse
import ScopedGrammar.Proofs.Move.Kept
import ScopedGrammar.Proofs.Move.Kernel
import ScopedGrammar.Proofs.Move.Possible
import ScopedGrammar.Proofs.Move.Proposal
import ScopedGrammar.Proofs.Move.Rating
import ScopedGrammar.Proofs.Move.Regeneration
import ScopedGrammar.Proofs.Move.Renamed
import ScopedGrammar.Proofs.Move.SiteScore
import ScopedGrammar.Proofs.Move.Sites
import ScopedGrammar.Proofs.Move.Support
import ScopedGrammar.Proofs.Move.Totals
import ScopedGrammar.Proofs.Move.Transplant
import ScopedGrammar.Proofs.NameSupply
import ScopedGrammar.Proofs.Posterior.Breakout
import ScopedGrammar.Proofs.Random.Ensures
import ScopedGrammar.Proofs.Random.Expectation
import ScopedGrammar.Proofs.Random.Leads
import ScopedGrammar.Proofs.Random.Outcome
import ScopedGrammar.Proofs.Random.Possible
import ScopedGrammar.Proofs.Random.Reading
import ScopedGrammar.Proofs.Random.Totals
import ScopedGrammar.Proofs.Random.Truncation
import ScopedGrammar.Proofs.Retained.Leaderboard
import ScopedGrammar.Proofs.Retained.Window
import ScopedGrammar.Proofs.Scalar.Exact
import ScopedGrammar.Proofs.Scalar.LogMass
import ScopedGrammar.Proofs.Scalar.Rates
import ScopedGrammar.Proofs.Scalar.Rounded
import ScopedGrammar.Proofs.Text.Marks
import ScopedGrammar.Proofs.Text.NameOrder
import ScopedGrammar.Proofs.Text.Template
import ScopedGrammar.Proofs.Tree.Agreement
import ScopedGrammar.Proofs.Tree.Binding
import ScopedGrammar.Proofs.Tree.Canonical
import ScopedGrammar.Proofs.Tree.CanonicalOrder
import ScopedGrammar.Proofs.Tree.Expressions
import ScopedGrammar.Proofs.Tree.Matching
import ScopedGrammar.Proofs.Tree.MatchingVariants
import ScopedGrammar.Proofs.Tree.Outer
import ScopedGrammar.Proofs.Tree.Places
import ScopedGrammar.Proofs.Tree.Printed
import ScopedGrammar.Proofs.Tree.ReadBack
import ScopedGrammar.Proofs.Tree.Renamed
import ScopedGrammar.Proofs.Tree.Renewal
import ScopedGrammar.Proofs.Tree.Shifted
import ScopedGrammar.Proofs.Tree.Structure
import ScopedGrammar.Proofs.Tree.Uniquify
import ScopedGrammar.Proofs.Tree.Variant
import ScopedGrammar.Random.Words
import ScopedGrammar.Retained.Leaderboard
import ScopedGrammar.Scalar.LogSpace
import ScopedGrammar.Settings.Reader
import ScopedGrammar.Tree.Json
import ScopedGrammar.Tree.Partial
import ScopedGrammar.Tree.Rendering
