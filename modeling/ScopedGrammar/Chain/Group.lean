import ScopedGrammar.Chain.Basic

/-!
# Groups of chains

Several chains that are walked on one at a time. The others stay as they are while one is walked
on, whatever becomes of it.
-/
namespace ScopedGrammar

/-- Walk on one member of a list, if there is one at the position. -/
def SafeWalk.onMember {K σ α : Type} (i : Nat) (x : SafeWalk K σ α) :
    SafeWalk K (List σ) (Option α) := fun stage =>
  match stage.subject[i]? with
  | none => .done (none, stage)
  | some a =>
      (x ⟨a, stage.names, stage.tally, stage.records⟩).bind fun (b, inner) =>
        .done
          (some b, ⟨stage.subject.set i inner.subject, inner.names, inner.tally, inner.records⟩)

/-- Chains in a fixed order. -/
abbrev ChainGroup (K D : Type) := List (Chain K D)

namespace ChainGroup

variable {K D : Type} [Scalar K]

def samples (g : ChainGroup K D) : List Nat := g.map (·.samples)

/-- Change the data of every chain in turn, until one fails to score its current tree anew. -/
def setData (data : List D) (recompute : Bool) : Walk K (ChainGroup K D) Unit := do
  let g ← Walk.subject
  (List.range g.length).forM fun i => do
    match ← Walk.ofSafe (SafeWalk.onMember i (Walk.attempt (Chain.setData data recompute))) with
    | some (.error e) => throw e
    | _ => pure ()

end ChainGroup

end ScopedGrammar
