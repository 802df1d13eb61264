import ScopedGrammar.Proofs.Grammar.Limit
import ScopedGrammar.Proofs.Move.Accuracy

/-!
# Which moves have a score

Generation is limited in depth, scoring is not. So a score says how probable a move would be if the
second tree were within the limit, and it is a number exactly if the move is possible then.
-/
namespace ScopedGrammar

open Exact

section Limit

variable {K : Type} [Scalar K]

theorem Regeneration.logProbability_upToDepth (g : Grammar K) (limit : ℕ) (w : SiteWeights K)
    (x y : Tree K) : logProbability (g.upToDepth limit) w x y = logProbability g w x y := by
  have hsites : ∀ total places, siteLogProbabilities (g.upToDepth limit) w total x y places =
      siteLogProbabilities g w total x y places := by
    intro total places
    induction places with
    | nil => rfl
    | cons p places ih =>
      simp only [siteLogProbabilities, Grammar.logProbabilityAt_upToDepth, ih]
  simp only [logProbability, hsites]

namespace Insertion

theorem siblingsLogProbability_upToDepth (g : Grammar K) (limit : ℕ) (t : Tree K) (p : Place)
    (slot : ℕ) (lp : K) (siblings : List (ℕ × Tree K)) :
    siblingsLogProbability (g.upToDepth limit) t p slot lp siblings =
      siblingsLogProbability g t p slot lp siblings := by
  induction siblings generalizing lp with
  | nil => rfl
  | cons c siblings ih =>
    simp only [siblingsLogProbability, Grammar.logProbabilityAt_upToDepth, ih]

theorem slotLogProbabilities_upToDepth (g : Grammar K) (limit : ℕ) (x y n : Tree K) (p : Place)
    (slots rest : List ℕ) : slotLogProbabilities (g.upToDepth limit) x y n p slots rest =
      slotLogProbabilities g x y n p slots rest := by
  induction rest with
  | nil => rfl
  | cons slot rest ih =>
    simp only [slotLogProbabilities, siblingsLogProbability_upToDepth, ih]

theorem logProbability_upToDepth (g : Grammar K) (limit : ℕ) (w : SiteWeights K) (x y : Tree K) :
    logProbability (g.upToDepth limit) w x y = logProbability g w x y := by
  have hrules : replicatingRules (g.upToDepth limit) x = replicatingRules g x := rfl
  have hweight : siteWeight (g.upToDepth limit) w x = siteWeight g w x := rfl
  have hnode : (g.upToDepth limit).ruleForNode = g.ruleForNode := rfl
  have hsites : ∀ total places, siteLogProbabilities (g.upToDepth limit) w total x y places =
      siteLogProbabilities g w total x y places := by
    intro total places
    induction places with
    | nil => rfl
    | cons p places ih =>
      simp only [siteLogProbabilities, slotLogProbabilities_upToDepth, hrules, hweight, hnode, ih]
  simp only [logProbability, hsites, hweight]

end Insertion

mutual

theorem Kernel.logProbability_upToDepth (g : Grammar K) (limit : ℕ) (w : SiteWeights K)
    (x y : Tree K) :
    (k : Kernel K) → k.logProbability (g.upToDepth limit) w x y = k.logProbability g w x y
  | .regeneration => Regeneration.logProbability_upToDepth g limit w x y
  | .insert => Insertion.logProbability_upToDepth g limit w x y
  | .delete => rfl
  | .copy => rfl
  | .mixture components => by
    rw [Kernel.logProbability, Kernel.logProbability,
      Kernel.componentLogProbabilities_upToDepth g limit w x y _ components]

theorem Kernel.componentLogProbabilities_upToDepth (g : Grammar K) (limit : ℕ)
    (w : SiteWeights K) (x y : Tree K) (total : K) : (components : List (K × Kernel K)) →
      Kernel.componentLogProbabilities (g.upToDepth limit) w x y total components =
        Kernel.componentLogProbabilities g w x y total components
  | [] => rfl
  | (weight, k) :: components => by
    rw [Kernel.componentLogProbabilities, Kernel.componentLogProbabilities,
      Kernel.logProbability_upToDepth g limit w x y k,
      Kernel.componentLogProbabilities_upToDepth g limit w x y total components]

end

end Limit

namespace Kernel

variable {g : Grammar Exact} {w : SiteWeights Exact} {s names : NameSupply} {x y : Tree Exact}
  {k : Kernel Exact}

/-- The score of a kernel is the logarithm of the probability that it moves from one tree to a
variant of another under a limit of the depth that the second tree keeps to. -/
theorem logProbability_eq_logOf (hk : k.WellWeighted) (hg : g.Proper) (hplain : g.PlainNames)
    (hw : w.Nonneg) (hx : g.Generable s [] x) (hy : g.Generable names [] y) :
    k.logProbability g w x y = .ok (logOf
      ((k.propose (g.upToDepth y.depth) w x).prob s fun t => t.Variant y)) := by
  have hx' : (g.upToDepth y.depth).Generable s [] x := hx.upToDepth
  have hy' : (g.upToDepth y.depth).Generable names [] y := hy.upToDepth
  have hplain' : (g.upToDepth y.depth).PlainNames := hplain.upToDepth
  obtain ⟨lp, hlp, hrates⟩ := rates_propose hk hg.upToDepth hplain' hw
    (hx'.derivable hplain') (hy'.derivable hplain')
  rw [← logProbability_upToDepth g y.depth, hlp, hrates.eq_logOf (hx'.reaches hy' le_rfl)]

end Kernel

end ScopedGrammar
