import ScopedGrammar.Chain.Group

/-!
# Parallel tempering

Chains at rising likelihood temperatures take one sample each in turn. From time to time a pair of
neighbours may exchange their current samples: the exchange is accepted by how much it raises the
tempered posterior of the pair.
-/
namespace ScopedGrammar

/-- How the temperatures of a ladder are given. -/
inductive LadderSpec (K : Type) where
  /-- So many temperatures, spaced geometrically from `1` up to the highest. -/
  | sizeAndMax (size : Nat) (highest : K)
  | explicit (temperatures : List K)

/-- The likelihood temperatures, the lowest first. -/
def LadderSpec.temperatures {K : Type} [Scalar K] : LadderSpec K → List K
  | explicit ts => ts
  | sizeAndMax size highest =>
      if size ≤ 1 then [1]
      else
        (List.range size).map fun rung =>
          Scalar.exp (Scalar.ofNat rung * Scalar.log highest / Scalar.ofNat (size - 1))

/-- Chains at rising temperatures. -/
structure Tempering (K D : Type) where
  /-- The chains, the coldest first. -/
  chains : ChainGroup K D
  /-- Propose an exchange every so many samples; `0` never does. -/
  swapEvery : Nat
  /-- For each chain, which of the latest exchanges with its colder neighbour were accepted. -/
  swapHistories : List (Window Bool)
  /-- The number of turns taken. -/
  turns : Nat
  /-- The samples taken since an exchange was last proposed. -/
  sinceSwap : Nat

namespace Tempering

variable {K D : Type} [Scalar K]

/-- The number of exchanges that the swap rate looks back on. -/
def historySize : Nat := 100

/-- A chain for each temperature. The coldest starts from the given tree, the others from a fresh
one for the same nonterminal. -/
def startChains {σ : Type} (p : Problem K D) (t : Tree K) (cold : Bool) :
    List K → Walk K σ (ChainGroup K D)
  | [] => pure []
  | temperature :: temperatures => do
      let c ← Chain.ofTree p t
      let c ←
        if cold then pure c
        else Walk.onOwn c (do Chain.restart; Walk.subject)
      let c := { c with temperatures := { c.temperatures with likelihood := temperature } }
      let cs ← startChains p t false temperatures
      pure (c :: cs)

/-- Chains at the given temperatures. -/
def ofTree {σ : Type} (p : Problem K D) (t : Tree K) (temperatures : List K) (swapEvery : Nat) :
    Walk K σ (Tempering K D) := do
  let chains ← startChains p t true temperatures
  pure ⟨chains, swapEvery, chains.map fun _ => .empty historySize, 0, 0⟩

/-- The likelihood temperature of each chain. -/
def temperatures (s : Tempering K D) : List K := s.chains.map (·.temperatures.likelihood)

/-- The acceptance rate of each chain. -/
def acceptanceRates (s : Tempering K D) : List K := s.chains.map (·.acceptanceRate)

/-- For each chain but the first the fraction of the latest exchanges with its colder neighbour
that were accepted. -/
def swapRates (s : Tempering K D) : List K := (s.swapHistories.drop 1).map (·.rate)

/-- Walk on the chains. -/
def onChains {α : Type} (x : SafeWalk K (ChainGroup K D) α) : SafeWalk K (Tempering K D) α :=
  Walk.onPart (·.chains) (fun chains s => { s with chains }) x

/-- Change the data of every chain in turn. -/
def setData (data : List D) (recompute : Bool) : Walk K (Tempering K D) Unit :=
  onChains (ChainGroup.setData data recompute)

/-- By how much an exchange of their samples raises the tempered posterior of two chains. -/
def swapLogRatio (lower upper : Chain K D) : K :=
  let cold := lower.temperatures.likelihood
  let hot := upper.temperatures.likelihood
  let now := lower.atTemperature cold + upper.atTemperature hot
  let swapped := lower.atTemperature hot + upper.atTemperature cold
  swapped - now

/-- Exchange the current samples of the chains at two positions. -/
def exchange (i j : Nat) (chains : ChainGroup K D) : ChainGroup K D :=
  match chains[i]?, chains[j]? with
  | some c, some d =>
      (chains.set i { c with current := d.current }).set j { d with current := c.current }
  | _, _ => chains

/-- Decide an exchange: an undefined ratio rejects, one that is not negative accepts, and otherwise
a draw is made. -/
def acceptSwap {σ : Type} (ratio : K) : Walk K σ Bool :=
  if Scalar.isNaN ratio then pure false
  else if Scalar.le 0 ratio then pure true
  else Walk.ofRand (fractionBelow (Scalar.exp ratio))

/-- Propose an exchange between the chains at position `k` and the one before it. -/
def proposeSwap (k : Nat) : Walk K (Tempering K D) Unit := do
  let s ← Walk.subject
  match s.chains[k - 1]?, s.chains[k]? with
  | some lower, some upper => do
      let accepted ← acceptSwap (swapLogRatio lower upper)
      Walk.record (.swap (k - 1) k accepted)
      Walk.update fun s =>
        { s with
          chains := if accepted then exchange (k - 1) k s.chains else s.chains
          swapHistories := s.swapHistories.modify k (·.add accepted) }
  | _, _ => pure ()

/-- Propose an exchange between two neighbours that are drawn. -/
def swap : Walk K (Tempering K D) Unit := do
  let s ← Walk.subject
  if h : 0 < s.chains.length - 1 then do
    let i ← Walk.ofSampler (uniformIndex .fullWord (s.chains.length - 1) h)
    proposeSwap (1 + i.val)
  else pure ()

/-- Propose an exchange if one is due. -/
def swapIfDue : Walk K (Tempering K D) Unit := do
  let s ← Walk.subject
  if 0 < s.swapEvery && s.swapEvery ≤ s.sinceSwap then
    swap
    Walk.update fun s => { s with sinceSwap := 0 }

/-- Let the next chain go on until it reports a sample; nothing if the control says to stop, or if
there are no chains. -/
def advance : Walk K (Tempering K D × Control) (Option (Nat × Sample K)) := do
  let (s, _) ← Walk.subject
  if s.chains.isEmpty then pure none
  else
    Walk.update fun s => (s.1, s.2.ensureStarted)
    (Walk.onPart Prod.fst (fun s' s => (s', s.2)) swapIfDue :
      Walk K (Tempering K D × Control) Unit)
    let (s, _) ← Walk.subject
    let which := s.turns % s.chains.length
    Walk.update fun (s, ctl) => ({ s with turns := s.turns + 1, sinceSwap := s.sinceSwap + 1 }, ctl)
    let sample ← onChainAndControl which Chain.advance
    pure (sample.join.map fun x => (which, x))
where
  /-- Walk on one chain together with the control. -/
  onChainAndControl {α : Type} (i : Nat) (x : Walk K (Chain K D × Control) α) :
      Walk K (Tempering K D × Control) (Option α) := fun stage =>
    match stage.subject.1.chains[i]? with
    | none => .done (.ok none, stage)
    | some c =>
        (x ⟨(c, stage.subject.2), stage.names, stage.tally, stage.records⟩).bind
          fun (outcome, inner) =>
            let s := stage.subject.1
            .done
              (outcome.map some,
                ⟨({ s with chains := s.chains.set i inner.subject.1 }, inner.subject.2),
                  inner.names, inner.tally, inner.records⟩)

/-- Let the chains take turns and collect the reported samples, each with the index of its
chain. -/
def run (ctl : Control) : SafeWalk K (Tempering K D) (Report (Nat × Sample K)) :=
  Walk.onPart (fun s => (s, ctl.start)) (fun s _ => s.1)
    (SafeWalk.collect advance (ctl.stepBound + 1) [])

end Tempering

end ScopedGrammar
