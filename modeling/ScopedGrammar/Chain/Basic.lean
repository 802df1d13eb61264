import ScopedGrammar.Chain.Acceptance
import ScopedGrammar.Chain.Control
import ScopedGrammar.Chain.Walk
import ScopedGrammar.Move.Kernel
import ScopedGrammar.Retained.Window

/-!
# Chains

A chain walks through the trees of a grammar. A step proposes a tree and accepts or rejects it by
the acceptance rule; a proposal that fails recoverably is a rejected move. A chain that has not
improved for long enough may restart from a fresh tree.
-/
namespace ScopedGrammar

/-- What a chain works on. -/
structure Problem (K D : Type) where
  grammar : Grammar K
  model : Model K D
  data : List D
  proposer : Proposer K

/-- The state of a chain. -/
structure Chain (K D : Type) where
  problem : Problem K D
  current : Sample K
  temperatures : Temperatures K
  /-- The best posterior seen since the last restart. -/
  best : K
  samples : Nat
  proposals : Nat
  acceptances : Nat
  stepsSinceImprovement : Nat
  /-- Which of the latest proposals were accepted. -/
  history : Window Bool

namespace Chain

variable {K D : Type} [Scalar K]

/-- The number of proposals that the acceptance rate looks back on. -/
def historySize : Nat := 100

/-- A chain that starts from a tree. -/
def ofTree {σ : Type} (p : Problem K D) (t : Tree K) : Walk K σ (Chain K D) := do
  let score ← Walk.assess p.model p.grammar t p.data
  pure ⟨p, ⟨t, score⟩, .unit, Scalar.negInf, 0, 0, 0, 0, .empty historySize⟩

/-- A chain that starts from a tree of the grammar. -/
def ofPrior {σ : Type} (p : Problem K D) : Walk K σ (Chain K D) := do
  let t ← Walk.ofSampler (p.grammar.generateRetrying p.grammar.start p.proposer.maxAttempts)
  ofTree p t

/-- The fraction of the latest proposals that were accepted. -/
def acceptanceRate (c : Chain K D) : K := c.history.rate

/-- The current log-posterior with only the likelihood tempered. -/
def atTemperature (c : Chain K D) (t : K) : K := c.current.score.atTemperature t

/-- Remember whether a proposal was accepted. -/
def remember (accepted : Bool) (c : Chain K D) : Chain K D :=
  { c with history := c.history.add accepted }

/-- Accept or reject a candidate. -/
def decide (accepted : Bool) (candidate : Sample K) (c : Chain K D) : Chain K D :=
  (if accepted then { c with current := candidate, acceptances := c.acceptances + 1 } else c).remember
    accepted

/-- The better of the best posterior so far and the current one becomes the best, and the steps
without improvement are counted. -/
def trackImprovement (c : Chain K D) : Chain K D :=
  if Scalar.lt c.best c.current.score.posterior then
    { c with best := c.current.score.posterior, stepsSinceImprovement := 0 }
  else { c with stepsSinceImprovement := c.stepsSinceImprovement + 1 }

/-- The score of a proposed tree; one that is alike to the current tree has its score. -/
def scoreOf (c : Chain K D) (t : Tree K) : Walk K (Chain K D) (Score K) :=
  if t.alike c.current.tree then pure c.current.score
  else Walk.assess c.problem.model c.problem.grammar t c.problem.data

/-- Change the data, and score the current tree anew if asked to. -/
def setData (data : List D) (recompute : Bool) : Walk K (Chain K D) Unit := do
  Walk.update fun c => { c with problem := { c.problem with data } }
  if recompute then
    let c ← Walk.subject
    let score ← Walk.assess c.problem.model c.problem.grammar c.current.tree data
    Walk.update fun c => { c with current := ⟨c.current.tree, score⟩ }

/-- Replace the current sample by a fresh one for the same nonterminal. -/
def restart : Walk K (Chain K D) Unit := do
  let c ← Walk.subject
  let t ← Walk.ofSampler <|
    c.problem.grammar.generateRetrying c.current.tree.nonterminal c.problem.proposer.maxAttempts
  let score ← Walk.assess c.problem.model c.problem.grammar t c.problem.data
  Walk.update fun c =>
    { c with current := ⟨t, score⟩, best := score.posterior, stepsSinceImprovement := 0 }

/-- Propose a move and accept or reject it. -/
def step : Walk K (Chain K D) Bool := do
  Walk.update fun c => { c with proposals := c.proposals + 1 }
  let c ← Walk.subject
  match ← Walk.ofSampler (c.problem.proposer.proposeOnce c.problem.grammar c.current.tree) with
  | .failed cause => do
      Walk.record (.proposalFailed cause)
      Walk.update (remember false)
      pure false
  | .moved t fb => do
      let score ← c.scoreOf t
      let candidate : Sample K := ⟨t, score⟩
      let here := c.current.score.atTemperatures c.temperatures
      let there := score.atTemperatures c.temperatures
      if Scalar.isNaN here || Scalar.isNaN there || Scalar.isInf fb then
        Walk.record (.pathological here there fb)
      let ratio := acceptanceLogRatio here there fb c.temperatures.acceptance
      let below ← Walk.ofRand (fractionBelow (Scalar.exp ratio))
      let accepted := acceptedBy ratio below
      Walk.record (.decided accepted candidate)
      Walk.update (decide accepted candidate)
      pure accepted

/-- Restart; a recoverable failure keeps the current sample and begins to count anew. -/
def tryRestart (after : Nat) : Walk K (Chain K D) Unit := do
  Walk.record (.restarting after)
  tryCatch restart fun e =>
    if e.isRecoverable then do
      Walk.record (.restartFailed e)
      Walk.update fun c => { c with stepsSinceImprovement := 0 }
    else throw e

/-- Take one sample: restart if there was no improvement for too long, else step. -/
def takeSample (ctl : Control) : Walk K (Chain K D) Unit := do
  Walk.update trackImprovement
  let c ← Walk.subject
  if 0 < ctl.restart && ctl.restart < c.stepsSinceImprovement then tryRestart ctl.restart
  else
    let _ ← step
  Walk.update fun c => { c with samples := c.samples + 1 }
  let c ← Walk.subject
  if 0 < ctl.print && c.samples % ctl.print == 0 then
    Walk.record (.progress c.samples c.acceptanceRate c.current)

/-- Take samples until one is due to be reported or the control says to stop, for at most so many
steps. -/
def advanceWithin : Nat → Walk K (Chain K D × Control) (Option (Sample K))
  | 0 => pure none
  | bound + 1 => do
      let (_, ctl) ← Walk.subject
      let (running, ctl) := ctl.tick
      Walk.update fun s => (s.1, ctl)
      if running then do
        (Walk.onPart Prod.fst (fun c s => (c, s.2)) (takeSample ctl) :
          Walk K (Chain K D × Control) Unit)
        let (c, _) ← Walk.subject
        if ctl.reporting then pure (some c.current) else advanceWithin bound
      else pure none

/-- Take samples until one is due to be reported, or nothing if the control says to stop. -/
def advance : Walk K (Chain K D × Control) (Option (Sample K)) := do
  Walk.update fun s => (s.1, s.2.ensureStarted)
  let (_, ctl) ← Walk.subject
  advanceWithin ctl.stepsToReport

/-- Run a chain and collect the reported samples. -/
def run (ctl : Control) : SafeWalk K (Chain K D) (Report (Sample K)) :=
  Walk.onPart (fun c => (c, ctl.start)) (fun s _ => s.1)
    (SafeWalk.collect advance (ctl.stepBound + 1) [])

/-- Run a chain without a limit. -/
def runForever (ctl : Control) : SafeWalk K (Chain K D) (Report (Sample K)) := run ctl.unlimited

end Chain

end ScopedGrammar
