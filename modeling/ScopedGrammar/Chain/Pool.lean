import ScopedGrammar.Chain.Group

/-!
# Pools

A pool runs several chains in turn, each for a slice of steps. All slices share the steps of one
control, while burning, thinning and restarts begin anew with each slice. A slice ends after its
steps only: like the control, the pool has no limit of the running time.
-/
namespace ScopedGrammar

/-- Chains that take turns. -/
structure Pool (K D : Type) where
  chains : ChainGroup K D
  /-- The number of steps before it is the next chain's turn. -/
  sliceSteps : Nat

namespace Pool

variable {K D : Type} [Scalar K]

/-- The number of steps of a slice where nothing else is said. -/
def defaultSlice : Nat := 100

/-- So many chains, each started from a tree of the grammar. -/
def startChains {σ : Type} (p : Problem K D) : Nat → Walk K σ (ChainGroup K D)
  | 0 => pure []
  | n + 1 => do
      let c ← Chain.ofPrior p
      let cs ← startChains p n
      pure (c :: cs)

/-- A pool of chains, each started from a tree of the grammar. -/
def ofPrior {σ : Type} (p : Problem K D) (size : Nat) : Walk K σ (Pool K D) := do
  let chains ← startChains p size
  pure ⟨chains, defaultSlice⟩

/-- Walk on the chains of a pool. -/
def onChains {α : Type} (x : SafeWalk K (ChainGroup K D) α) : SafeWalk K (Pool K D) α :=
  Walk.onPart (·.chains) (fun chains p => { p with chains }) x

/-- Change the data of every chain in turn. -/
def setData (data : List D) (recompute : Bool) : Walk K (Pool K D) Unit :=
  onChains (ChainGroup.setData data recompute)

/-- The number of steps of the next slice: what a slice has, as far as the limit allows. -/
def sliceLength (sliceSteps : Nat) (ctl : Control) : Nat :=
  if 0 < ctl.steps then min (max sliceSteps 1) (ctl.steps + 1 - ctl.doneSteps) else max sliceSteps 1

/-- The control of a slice. -/
def sliceControl (sliceSteps : Nat) (ctl : Control) : Control :=
  .ofFields (sliceLength sliceSteps ctl) ctl.burn ctl.thin ctl.restart ctl.print

/-- Run one chain for a slice: what it reports and the number of samples that it took. -/
def runSlice (which : Nat) (slice : Control) :
    SafeWalk K (Pool K D) (Report (Sample K) × Nat) := do
  let outcome ← onChains <| SafeWalk.onMember which <| do
    let before ← get
    let report ← Chain.run slice
    let after ← get
    pure (report, after.subject.samples - before.subject.samples)
  pure (outcome.getD (⟨[], none⟩, 0))

/-- Run slices in turn, starting with the chain of an index, and collect what is reported, the
latest first. A slice takes at least one step, and the control has counted one of them. -/
def runFrom : Nat → Control → Nat → List (Nat × Sample K) →
    SafeWalk K (Pool K D) (Report (Nat × Sample K))
  | 0, _, _, collected => pure ⟨collected.reverse, none⟩
  | bound + 1, ctl, index, collected => do
      let stage ← get
      let (running, ctl) := ctl.tick
      if running then
        let which := index % stage.subject.chains.length
        let (report, taken) ← runSlice which (sliceControl stage.subject.sliceSteps ctl)
        let collected := (report.reported.map fun s => (which, s)).reverse ++ collected
        match report.failure with
        | some e => pure ⟨collected.reverse, some e⟩
        | none =>
            runFrom bound { ctl with doneSteps := ctl.doneSteps + (taken - 1) } (index + 1) collected
      else pure ⟨collected.reverse, none⟩

/-- Run the chains in turn and collect the reported samples, each with the index of its chain. A
pool without chains has nothing to run. -/
def run (ctl : Control) : SafeWalk K (Pool K D) (Report (Nat × Sample K)) := do
  let stage ← get
  if stage.subject.chains.isEmpty then pure ⟨[], none⟩
  else runFrom (ctl.stepBound + 1) ctl.start 0 []

/-- Run the chains in turn without a limit. -/
def runForever (ctl : Control) : SafeWalk K (Pool K D) (Report (Nat × Sample K)) :=
  run ctl.unlimited

end Pool

end ScopedGrammar
