import ScopedGrammar.Move.Kernel
import ScopedGrammar.Proofs.Move.Copying
import ScopedGrammar.Proofs.Move.Deletion
import ScopedGrammar.Proofs.Move.Insertion
import ScopedGrammar.Proofs.Move.Regeneration

/-!
# Kernels

What a kernel says of the probability that it turns one tree into a variant of another is right. By
induction on how kernels are mixed, the score rates the probability: it is never less, and it is
exact between trees that have been expanded completely if the second one is not too deep.
-/
namespace ScopedGrammar.Kernel

open Exact

/-- Wherever kernels are mixed, no weight is negative and some weight is positive. -/
inductive WellWeighted : Kernel Exact → Prop
  | regeneration : WellWeighted .regeneration
  | insert : WellWeighted .insert
  | delete : WellWeighted .delete
  | copy : WellWeighted .copy
  | mixture {components : List (Exact × Kernel Exact)} (nonneg : ∀ c ∈ components, c.1.Nonneg)
      (positive : 0 < (components.map fun c => c.1.toReal).sum)
      (each : ∀ c ∈ components, c.2.WellWeighted) : WellWeighted (.mixture components)

section Sampler

variable {K : Type} [Scalar K]

theorem proposeNth_eq {g : Grammar K} {w : SiteWeights K} {t : Tree K} {i : ℕ}
    {components : List (K × Kernel K)} {c : K × Kernel K} (h : components[i]? = some c) :
    proposeNth g w t i components = c.2.propose g w t := by
  induction components generalizing i with
  | nil => simp at h
  | cons d components ih =>
    cases i with
    | zero =>
      obtain rfl : d = c := by simpa using h
      rfl
    | succ i => exact ih (by simpa using h)

end Sampler

variable {g : Grammar Exact} {w : SiteWeights Exact} {s names : NameSupply} {x y : Tree Exact}

theorem sum_weights {components : List (Exact × Kernel Exact)}
    (hnonneg : ∀ c ∈ components, c.1.Nonneg) :
    Scalar.sum (components.map (·.1)) = real (components.map fun c => c.1.toReal).sum := by
  have hws : ∀ v ∈ components.map (·.1), v.Nonneg := by simpa using fun v k h => hnonneg (v, k) h
  rw [sum_eq_real hws, List.map_map]
  rfl

/-- A mixture draws a component with its share of the total weight. -/
theorem prob_mixture {components : List (Exact × Kernel Exact)}
    (hnonneg : ∀ c ∈ components, c.1.Nonneg)
    (hpos : 0 < (components.map fun c => c.1.toReal).sum) (s : NameSupply) (E : Tree Exact → Prop) :
    ((mixture components).propose g w x).prob s E = (components.map fun c =>
      c.1.toReal / (components.map fun c => c.1.toReal).sum * (c.2.propose g w x).prob s E).sum := by
  have hws : ∀ v ∈ components.map (·.1), v.Nonneg := by simpa using fun v k h => hnonneg (v, k) h
  have htotal : (components.map (·.1)).map toReal = components.map fun c => c.1.toReal := List.map_map
  rw [propose, Sampler.prob_bind, mean_weightedIndex hws, htotal, if_pos hpos,
    ← Fin.sum_univ_fun_getElem components fun c =>
      c.1.toReal / (components.map fun c => c.1.toReal).sum * (c.2.propose g w x).prob s E,
    ← Fin.sum_congr' _ (List.length_map Prod.fst)]
  refine Finset.sum_congr rfl fun i _ => ?_
  have hget : components[i.val]? = some components[i.val] := List.getElem?_eq_getElem _
  simp only [Fin.getElem_fin, List.getElem_map, Fin.val_cast, proposeNth_eq hget]

/-- The scores of the components rate what each of them adds. -/
theorem ratesSum_componentLogProbabilities {exact : Prop} {total : ℝ} (htotal : 0 < total)
    {v : Exact × Kernel Exact → ℝ} {components : List (Exact × Kernel Exact)}
    (hnonneg : ∀ c ∈ components, c.1.Nonneg)
    (h : ∀ c ∈ components, ∃ lp, c.2.logProbability g w x y = .ok lp ∧ Rates exact lp (v c)) :
    ∃ lps, componentLogProbabilities g w x y (real total) components = .ok lps ∧
      RatesSum exact lps (components.map fun c => c.1.toReal / total * v c).sum := by
  induction components with
  | nil => exact ⟨[], rfl, ratesSum_nil⟩
  | cons c components ih =>
    obtain ⟨weight, k⟩ := c
    obtain ⟨lps, hlps, hrates⟩ := ih (fun c hc => hnonneg c (List.mem_cons_of_mem _ hc))
      fun c hc => h c (List.mem_cons_of_mem _ hc)
    obtain ⟨r, hr, hweight⟩ := hnonneg (weight, k) List.mem_cons_self
    obtain rfl : weight = real r := hweight
    rw [componentLogProbabilities, List.map_cons, List.sum_cons, toReal_real]
    by_cases hpos : 0 < r
    · obtain ⟨lp, hlp, hrate⟩ := h (real r, k) List.mem_cons_self
      have hlt := (zero_lt_real r).mpr hpos
      have hscore : Scalar.safeLog (real r) - Scalar.safeLog (real total) = logOf (r / total) := by
        rw [safeLog_real, safeLog_real, logOf_sub hr htotal]
      have hlp : k.logProbability g w x y = .ok lp := hlp
      refine ⟨(Scalar.safeLog (real r) - Scalar.safeLog (real total) + lp) :: lps, ?_, ?_⟩
      · rw [if_pos hlt, hlp, hlps]
        rfl
      · rw [hscore]
        exact hrates.cons (hrate.after (div_nonneg hr htotal.le))
    · have hlt := (zero_lt_real r).not.mpr hpos
      obtain rfl : r = 0 := le_antisymm (not_lt.mp hpos) hr
      exact ⟨lps, by rw [if_neg hlt, hlps], hrates.skip (by rw [zero_div, zero_mul])⟩

/-- The score of a kernel rates its probability. -/
theorem rates_propose {k : Kernel Exact} (hk : k.WellWeighted) (hg : g.Proper)
    (hplain : g.PlainNames) (hw : w.Nonneg) (hx : g.Derivable s x) (hy : g.Derivable names y) :
    ∃ lp, k.logProbability g w x y = .ok lp ∧
      Rates (g.Reaches x y) lp ((k.propose g w x).prob s fun t => t.Variant y) := by
  induction hk with
  | regeneration => exact Regeneration.rates_propose hg hplain hw hx hy
  | insert => exact Insertion.rates_propose hg hplain hw hx hy
  | delete =>
    refine ⟨_, rfl, ?_⟩
    exact (Deletion.rates_propose hg.distinct hplain hw hx hy).of_le le_rfl
      fun h => ⟨h.complete, rfl⟩
  | copy =>
    refine ⟨_, rfl, ?_⟩
    exact (Copying.rates_propose hg.distinct hplain hw hx hy (Nat.le_refl _)).of_le le_rfl
      fun h => ⟨h.complete, rfl⟩
  | @mixture components hnonneg hpos _ ih =>
    obtain ⟨lps, hlps, hrates⟩ := ratesSum_componentLogProbabilities hpos hnonneg ih
    refine ⟨Scalar.logSumExp lps, ?_, ?_⟩
    · rw [logProbability, sum_weights hnonneg, hlps]
      rfl
    · rw [prob_mixture hnonneg hpos]
      exact hrates.logSumExp

end ScopedGrammar.Kernel
