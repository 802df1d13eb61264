import Mathlib.Logic.Relation
import ScopedGrammar.Proofs.Move.Support

/-!
# Flattened mixtures

A mixture scores exactly what it does, however mixtures are nested. So a mixture within a mixture
may give way to its components: each takes the share of the weight that it had in the inner mixture.
Neither what the kernel does nor what it says of itself changes by that, and it may be done at any
depth and as often as one likes.
-/
namespace ScopedGrammar.Kernel

open Exact

section Flattening

variable {K : Type} [Scalar K]

/-- The components of a mixture, whose weights share out a weight. -/
def spread (v : K) (inner : List (K × Kernel K)) : List (K × Kernel K) :=
  inner.map fun c => (v * (c.1 / Scalar.sum (inner.map (·.1))), c.2)

/-- The second kernel is the first one after a mixture within a mixture has given way to its
components. -/
inductive Flattens : Kernel K → Kernel K → Prop
  | here (before : List (K × Kernel K)) (v : K) (inner after : List (K × Kernel K)) :
      Flattens (.mixture (before ++ (v, .mixture inner) :: after))
        (.mixture (before ++ (spread v inner ++ after)))
  | inside (before : List (K × Kernel K)) (v : K) {k k' : Kernel K} (after : List (K × Kernel K))
      (h : Flattens k k') :
      Flattens (.mixture (before ++ (v, k) :: after)) (.mixture (before ++ (v, k') :: after))

end Flattening

variable {v : Exact} {inner : List (Exact × Kernel Exact)}

theorem spread_eq (hv : v.Nonneg) (hnonneg : ∀ c ∈ inner, c.1.Nonneg)
    (hpos : 0 < (inner.map fun c => c.1.toReal).sum) : spread v inner = inner.map fun c =>
      (real (v.toReal * (c.1.toReal / (inner.map fun c => c.1.toReal).sum)), c.2) := by
  have htotal : Scalar.sum (inner.map (·.1)) = real (inner.map fun c => c.1.toReal).sum := by
    rw [sum_eq_real (by simpa using fun u k h => hnonneg (u, k) h), List.map_map]
    rfl
  refine List.map_congr_left fun c hc => ?_
  rw [htotal, ← (hnonneg c hc).real_toReal, ← hv.real_toReal, real_div hpos.ne']
  rfl

theorem sum_spread (hv : v.Nonneg) (hnonneg : ∀ c ∈ inner, c.1.Nonneg)
    (hpos : 0 < (inner.map fun c => c.1.toReal).sum) :
    ((spread v inner).map fun c => c.1.toReal).sum = v.toReal := by
  rw [spread_eq hv hnonneg hpos, List.map_map]
  simp only [Function.comp_def, toReal_real]
  rw [List.sum_map_mul_left]
  simp only [div_eq_mul_inv]
  rw [List.sum_map_mul_right, mul_inv_cancel₀ hpos.ne', mul_one]

theorem nonneg_of_mem_spread (hv : v.Nonneg) (hnonneg : ∀ c ∈ inner, c.1.Nonneg)
    (hpos : 0 < (inner.map fun c => c.1.toReal).sum) : ∀ c ∈ spread v inner, c.1.Nonneg := by
  rw [spread_eq hv hnonneg hpos]
  intro c hc
  obtain ⟨d, hd, rfl⟩ := List.mem_map.mp hc
  exact ⟨_, mul_nonneg hv.toReal_nonneg (div_nonneg (hnonneg d hd).toReal_nonneg hpos.le), rfl⟩

theorem wellWeighted_mixture_iff {components : List (Exact × Kernel Exact)} :
    (mixture components).WellWeighted ↔ (∀ c ∈ components, c.1.Nonneg ∧ c.2.WellWeighted) ∧
      0 < (components.map fun c => c.1.toReal).sum := by
  constructor
  · rintro ⟨⟩
    next hnonneg hpos heach => exact ⟨fun c hc => ⟨hnonneg c hc, heach c hc⟩, hpos⟩
  · rintro ⟨hall, hpos⟩
    exact .mixture (fun c hc => (hall c hc).1) hpos fun c hc => (hall c hc).2

section Flattened

variable {g : Grammar Exact} {w : SiteWeights Exact} {s : NameSupply} {x : Tree Exact}
  {k k' : Kernel Exact}

/-- A flattened kernel is as well weighted as before. -/
theorem Flattens.wellWeighted (h : Flattens k k') (hk : k.WellWeighted) : k'.WellWeighted := by
  induction h with
  | here before v inner after =>
    obtain ⟨hall, hpos⟩ := wellWeighted_mixture_iff.mp hk
    obtain ⟨hv, hinner⟩ := hall (v, mixture inner) (by simp)
    obtain ⟨heach, hsum⟩ := wellWeighted_mixture_iff.mp hinner
    have hnonneg : ∀ c ∈ inner, c.1.Nonneg := fun c hc => (heach c hc).1
    refine wellWeighted_mixture_iff.mpr ⟨fun c hc => ?_, ?_⟩
    · rcases List.mem_append.mp hc with hc | hc
      · exact hall c (List.mem_append_left _ hc)
      rcases List.mem_append.mp hc with hc | hc
      · refine ⟨nonneg_of_mem_spread hv hnonneg hsum c hc, ?_⟩
        obtain ⟨d, hd, rfl⟩ := List.mem_map.mp hc
        exact (heach d hd).2
      · exact hall c (by simp [hc])
    · simpa [sum_spread hv hnonneg hsum] using hpos
  | @inside before v k k' after _ ih =>
    obtain ⟨hall, hpos⟩ := wellWeighted_mixture_iff.mp hk
    obtain ⟨hv, hk⟩ := hall (v, k) (by simp)
    refine wellWeighted_mixture_iff.mpr ⟨fun c hc => ?_, by simpa using hpos⟩
    rcases List.mem_append.mp hc with hc | hc
    · exact hall c (List.mem_append_left _ hc)
    rcases List.mem_cons.mp hc with rfl | hc
    · exact ⟨hv, ih hk⟩
    · exact hall c (by simp [hc])

/-- A flattened kernel comes to every set of trees with the same probability. -/
theorem Flattens.prob_eq (h : Flattens k k') (hk : k.WellWeighted) (E : Tree Exact → Prop) :
    (k'.propose g w x).prob s E = (k.propose g w x).prob s E := by
  induction h with
  | here before v inner after =>
    obtain ⟨hall, hpos⟩ := wellWeighted_mixture_iff.mp hk
    obtain ⟨hall', hpos'⟩ := wellWeighted_mixture_iff.mp ((Flattens.here ..).wellWeighted hk)
    obtain ⟨hv, hinner⟩ := hall (v, mixture inner) (by simp)
    obtain ⟨heach, hsum⟩ := wellWeighted_mixture_iff.mp hinner
    have hnonneg : ∀ c ∈ inner, c.1.Nonneg := fun c hc => (heach c hc).1
    have htotal : ((before ++ (spread v inner ++ after)).map fun c => c.1.toReal).sum =
        ((before ++ (v, mixture inner) :: after).map fun c => c.1.toReal).sum := by
      simp [sum_spread hv hnonneg hsum]
    rw [prob_mixture (fun c hc => (hall' c hc).1) hpos', prob_mixture (fun c hc => (hall c hc).1) hpos,
      htotal]
    generalize ((before ++ (v, mixture inner) :: after).map fun c => c.1.toReal).sum = total
    -- The share of the inner mixture is what its components have together.
    have hshare : ((spread v inner).map fun c =>
        c.1.toReal / total * (c.2.propose g w x).prob s E).sum =
          v.toReal / total * ((mixture inner).propose g w x).prob s E := by
      rw [prob_mixture hnonneg hsum, spread_eq hv hnonneg hsum, List.map_map,
        ← List.sum_map_mul_left]
      refine congrArg List.sum (List.map_congr_left fun c _ => ?_)
      simp only [Function.comp_apply, toReal_real]
      ring
    simp only [List.map_append, List.sum_append, List.map_cons, List.sum_cons, hshare]
  | @inside before v k k' after h ih =>
    obtain ⟨hall, hpos⟩ := wellWeighted_mixture_iff.mp hk
    obtain ⟨hall', hpos'⟩ :=
      wellWeighted_mixture_iff.mp ((Flattens.inside before v after h).wellWeighted hk)
    obtain ⟨-, hk⟩ := hall (v, k) (by simp)
    rw [prob_mixture (fun c hc => (hall' c hc).1) hpos', prob_mixture (fun c hc => (hall c hc).1) hpos]
    simp only [List.map_append, List.sum_append, List.map_cons, List.sum_cons, ih hk]

end Flattened

variable {g : Grammar Exact} {w : SiteWeights Exact} {s names : NameSupply} {x y : Tree Exact}
  {k k' : Kernel Exact}

/-- A flattened kernel gives trees that can be generated the same score. -/
theorem Flattens.logProbability_eq (h : Flattens k k') (hk : k.WellWeighted) (hg : g.Proper)
    (hplain : g.PlainNames) (hw : w.Nonneg) (hx : g.Generable s [] x)
    (hy : g.Generable names [] y) : k'.logProbability g w x y = k.logProbability g w x y := by
  rw [logProbability_eq_logOf (h.wellWeighted hk) hg hplain hw hx hy,
    logProbability_eq_logOf hk hg hplain hw hx hy, h.prob_eq hk]

/-- However mixtures are nested, a kernel scores exactly what it does: it turns a tree into another
with the exponential of the score for its probability, whichever components may come to that tree.
If mixtures within it give way to their components, both sides stay as they are. -/
theorem prob_kernel_alike (hdist : g.DistinctSignatures) (hplain : g.PlainNames)
    (hpos : g.PositiveWeights) (hk : k.WellWeighted) (hw : w.Nonneg) (hx : g.Generable s [] x)
    (hy : g.Generable names [] y) (hdepth : y.depth ≤ g.maxDepth) :
    (∃ lp, k.logProbability g w x y = .ok lp ∧
      Scalar.exp lp = real ((k.propose g w x).prob s fun t => t.alike y = true)) ∧
    ∀ k', Relation.ReflTransGen Flattens k k' → k'.WellWeighted ∧
      (∀ E, (k'.propose g w x).prob s E = (k.propose g w x).prob s E) ∧
        k'.logProbability g w x y = k.logProbability g w x y := by
  have hg : g.Proper := ⟨hdist, hplain.noReservedNames, hpos⟩
  have hx' := hx.derivable hplain
  have hy' := hy.derivable hplain
  constructor
  · obtain ⟨lp, hlp, hrates⟩ := rates_propose hk hg hplain hw hx' hy'
    have hkeeps : g.Keeps s x (k.propose g w x) := keeps_propose hk hg hplain hw hx'
    exact ⟨lp, hlp, hkeeps.exp_eq hdist hplain hy' hrates (hx.reaches hy hdepth)⟩
  · intro k' hflat
    induction hflat with
    | refl => exact ⟨hk, fun _ => rfl, rfl⟩
    | tail _ hstep ih =>
      obtain ⟨hmid, hprob, hscore⟩ := ih
      exact ⟨hstep.wellWeighted hmid, fun E => (hstep.prob_eq hmid E).trans (hprob E),
        (hstep.logProbability_eq hmid hg hplain hw hx hy).trans hscore⟩

/-- The constant becomes its application to itself by a mixture within a mixture, and by the mixture
of all components. -/
theorem prob_kernel_alike_pairTerm :
    let g : Grammar Exact := Grammar.terms
    let x : Tree Exact := Grammar.constantTerm
    let y : Tree Exact := Grammar.pairTerm
    let w : SiteWeights Exact := .leaves 1
    let inner : List (Exact × Kernel Exact) := [(real 3, .insert), (real 0, .delete), (real 1, .copy)]
    let k : Kernel Exact := .mixture [(real 2, .mixture inner), (real 1, .regeneration)]
    let k' : Kernel Exact := .mixture (spread (real 2) inner ++ [(real 1, .regeneration)])
    g.DistinctSignatures ∧ g.PlainNames ∧ g.PositiveWeights ∧ k.WellWeighted ∧ w.Nonneg ∧
      g.Generable ⟨0⟩ [] x ∧ g.Generable ⟨0⟩ [] y ∧ y.depth ≤ g.maxDepth ∧
      Relation.ReflTransGen Flattens k k' ∧
      (∃ lp, k.logProbability g w x y = .ok lp ∧
        Scalar.exp lp = real ((k.propose g w x).prob ⟨0⟩ fun t => t.alike y = true)) ∧
      k'.logProbability g w x y = k.logProbability g w x y := by
  intro g x y w inner k k'
  have hone : (real 1).Nonneg := ⟨1, zero_le_one, rfl⟩
  have hw : w.Nonneg := hone
  have hinner : (mixture inner).WellWeighted := by
    refine wellWeighted_mixture_iff.mpr ⟨?_, by norm_num [inner]⟩
    change ∀ c ∈ [_, _, _], _
    rintro c (_ | ⟨_, _ | ⟨_, _ | ⟨_, ⟨⟩⟩⟩⟩)
    · exact ⟨⟨3, by norm_num, rfl⟩, .insert⟩
    · exact ⟨⟨0, le_rfl, rfl⟩, .delete⟩
    · exact ⟨hone, .copy⟩
  have hk : k.WellWeighted := by
    refine wellWeighted_mixture_iff.mpr ⟨?_, by norm_num⟩
    rintro c (_ | ⟨_, _ | ⟨_, ⟨⟩⟩⟩)
    · exact ⟨⟨2, zero_le_two, rfl⟩, hinner⟩
    · exact ⟨hone, .regeneration⟩
  have hdepth : y.depth ≤ g.maxDepth := by
    simp [y, g, Grammar.pairTerm, Grammar.constantTerm, Tree.depth, Tree.heightArgs, Grammar.terms]
  have hx := Grammar.generable_constantTerm ⟨0⟩
  have hy := Grammar.generable_pairTerm ⟨0⟩
  have hflat : Relation.ReflTransGen Flattens k k' := .single (.here [] _ inner _)
  obtain ⟨hexp, hsame⟩ := prob_kernel_alike Grammar.distinctSignatures_terms
    Grammar.plainNames_terms Grammar.positiveWeights_terms hk hw hx hy hdepth
  exact ⟨Grammar.distinctSignatures_terms, Grammar.plainNames_terms, Grammar.positiveWeights_terms,
    hk, hw, hx, hy, hdepth, hflat, hexp, (hsame k' hflat).2.2⟩

end ScopedGrammar.Kernel
