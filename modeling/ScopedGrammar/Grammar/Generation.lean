import ScopedGrammar.Grammar.Basic
import ScopedGrammar.Random.Sampler

/-!
# Generating trees

A nonterminal is expanded by a rule drawn in proportion to its weight among the visible ones; the
nonterminals among its arguments are expanded in turn, from left to right, in the scope below the
new node. A budget limits the depth and may limit the number of nodes. It is checked before each
draw, so a tree that would exceed it is given up early and never cut short.
-/
namespace ScopedGrammar

/-- A limit on the size of generated trees. -/
inductive GenerationLimit where
  /-- At most this many nodes. -/
  | totalSize (nodes : Nat)
  /-- At most this depth, where a leaf has depth `0`. -/
  | depth (depth : Nat)
  deriving Repr, DecidableEq

namespace Grammar

variable {K : Type} [Scalar K]

/-- Draw one of the visible rules of a nonterminal. -/
def sampleRule (g : Grammar K) (nt : String) (scope : Scope K) : Sampler K (Rule K) := do
  let rules := g.visibleRules nt scope
  if rules.isEmpty && !g.isNonterminal nt then
    throw (.grammar (.unknownNonterminal nt))
  let r ← weightedChoice (·.weight) rules
  Sampler.getOrFail .exhausted r

/-- Expand a nonterminal, where `levels` levels are left below the limit of the depth, and `room`
nodes if their number is limited. The nodes that are left are returned. -/
def expand (g : Grammar K) : Nat → Option Nat → Scope K → String → Sampler K (Tree K × Option Nat)
  | 0, _, _, _ => throw .sizeExceeded
  | _, some 0, _, _ => throw .sizeExceeded
  | levels + 1, room, scope, nt => do
      let r ← g.sampleRule nt scope
      let kind ← Sampler.ofNaming (g.kindOf r)
      match r.expansion with
      | none => pure (.node r.nonterminal r.name kind none, room.map (· - 1))
      | some symbols => do
          let (as, room) ← expandArgs (g.expand levels) (scope.below kind) (room.map (· - 1)) symbols
          pure (.node r.nonterminal r.name kind (some as), room)
where
  /-- Fill the arguments in, given how a nonterminal is expanded. -/
  expandArgs (expand : Option Nat → Scope K → String → Sampler K (Tree K × Option Nat))
      (scope : Scope K) (room : Option Nat) : List String → Sampler K (List (Arg K) × Option Nat)
    | [] => pure ([], room)
    | s :: symbols => do
        if g.isNonterminal s then
          let (t, room) ← expand room scope s
          let (as, room) ← expandArgs expand scope room symbols
          pure (.subtree t :: as, room)
        else
          let (as, room) ← expandArgs expand scope room symbols
          pure (.terminal s :: as, room)

/-- Generate a tree that may use the variables of a scope. -/
def generateIn (g : Grammar K) (scope : Scope K) (nt : String) : Sampler K (Tree K) := do
  let (t, _) ← g.expand (g.maxDepth + 1) none scope nt
  pure t

/-- Generate a tree with no variable in scope. A symbol without rules is an error. -/
def generate (g : Grammar K) (nt : String) : Sampler K (Tree K) := g.generateIn [] nt

/-- Generate what fills a symbol in: a tree for a nonterminal, a terminal for itself. -/
def generateSymbol (g : Grammar K) (symbol : String) : Sampler K (Arg K) := do
  if g.isNonterminal symbol then
    let t ← g.generate symbol
    pure (.subtree t)
  else pure (.terminal symbol)

/-- Generate a tree within a limit. -/
def generateLimited (g : Grammar K) (limit : GenerationLimit) (nt : String) :
    Sampler K (Tree K) := do
  let (t, _) ←
    match limit with
    | .totalSize n => g.expand (g.maxDepth + 1) (some n) [] nt
    | .depth d => g.expand (min d g.maxDepth + 1) none [] nt
  pure t

/-- Generate a tree, retrying recoverable failures up to the number of attempts, of which there
is at least one. The last failure is the one reported. -/
def generateRetrying (g : Grammar K) (nt : String) : Nat → Sampler K (Tree K)
  | 0 | 1 => g.generate nt
  | attempts + 2 =>
      tryCatch (g.generate nt) fun e =>
        if e.isRecoverable then g.generateRetrying nt (attempts + 1) else throw e

end Grammar

end ScopedGrammar
