import ScopedGrammar.Proofs.Grammar.Distribution
import ScopedGrammar.Proofs.Move.Difference
import ScopedGrammar.Proofs.Move.Sites

/-!
# Rating edits

An edit draws a place and replaces the subtree there. It comes to a variant of another tree only if
the trees agree off the place and the new subtree corresponds to what the other tree has there. So
its probability is a sum over the places that may account for the differences, and the score of a
kernel rates it place by place.
-/
namespace ScopedGrammar

open Exact

namespace Grammar

/-- Both trees have been expanded completely, and the second is not too deep to be generated. Then
scores are exact. -/
def Reaches (g : Grammar Exact) (x y : Tree Exact) : Prop :=
  g.Complete x ∧ g.Complete y ∧ y.depth ≤ g.maxDepth

theorem Reaches.complete {g : Grammar Exact} {x y : Tree Exact} (h : g.Reaches x y) :
    g.Complete x ∧ g.Complete y :=
  ⟨h.1, h.2.1⟩

theorem Derivable.weighted {g : Grammar Exact} {names : NameSupply} {t : Tree Exact}
    (h : g.Derivable names t) : g.Weighted names [] t :=
  ⟨h.toDerived, by simp⟩

theorem Derivable.weighted_at {g : Grammar Exact} {names : NameSupply} {t n : Tree Exact}
    {p : Place} (h : g.Derivable names t) (hpos : g.PositiveWeights) (hn : t.get? p = some n) :
    g.Weighted names (t.variablesAbove p) n :=
  h.weighted.at_place hpos hn

end Grammar

namespace Tree

section Agreement

variable {K : Type} {g : Grammar K} {s names : NameSupply} {t x y m n : Tree K} {p : Place}

theorem depth_le_of_get? (hn : t.get? p = some n) : n.depth ≤ t.depth := by
  induction p generalizing t with
  | nil =>
    obtain rfl : t = n := by simpa using hn
    exact Nat.le_refl _
  | cons i p ih =>
    obtain ⟨c, hc, hcn⟩ := get?_cons_eq_some.mp hn
    have hmem := mem_args_of_child? hc
    have hlt : c.depth < t.depth := depth_lt_succ_iff.mp (Nat.lt_succ_self t.depth) c hmem
    have hle := ih hcn
    omega

theorem AgreeOff.aligned (h : AgreeOff Eq x y p) (hx : g.Derivable s x)
    (hy : g.Derivable names y) :
    Scope.Aligned (Matching.along Eq x y p) (x.variablesAbove p) (y.variablesAbove p) :=
  h.headsAlong.aligned hx.toDerived hy.toDerived (.nil Eq)

/-- Each site of an edit is a place of the first tree, and complete trees agree off it. -/
theorem of_mem_editSites (hdist : g.DistinctSignatures) (hplain : g.PlainNames)
    (hx : g.Derivable s x) (hy : g.Derivable names y) :
    ∀ p ∈ x.editSites y,
      (x.get? p).isSome ∧ (g.Complete x ∧ g.Complete y → AgreeOff Eq x y p) := by
  intro p hp
  obtain ⟨hsome, hmay⟩ := ((editSites_spec hdist hplain hx hy).2 p).mp hp
  obtain ⟨m, hm⟩ := Option.isSome_iff_exists.mp hsome
  exact ⟨hsome, fun h => agreeOff_of_mayAccount hdist hplain hx hy h.1 h.2 hm hmay⟩

end Agreement

variable {g : Grammar Exact} {s names : NameSupply} {x y m n : Tree Exact} {p : Place}

/-- What an edit at a place comes to is a variant of a tree that agrees off the place if the new
subtree corresponds to the one there. -/
theorem prob_replace {α : Type} (e : SampleError) (hm : x.get? p = some m) {c : Sampler Exact α}
    {f : α → Tree Exact} (hnt : ∀ a s', c.Yields s (.ok a) s' → (f a).nonterminal = m.nonterminal) :
    (c >>= fun a => Sampler.getOrFail e (x.replace? p (f a))).prob s (fun t => t.Variant y) =
      c.prob s fun a => AgreeOff Eq x y p ∧
        ∃ n, y.get? p = some n ∧ (f a).VariantOver (Matching.along Eq x y p) n := by
  classical
  rw [Sampler.prob_bind, Sampler.prob_eq_mean]
  refine Sampler.mean_congr fun a s' ha => ?_
  obtain ⟨x', hx'⟩ := Option.isSome_iff_exists.mp
    ((isSome_replace? x (f a) p).trans (by rw [hm]; rfl))
  rw [hx']
  change (pure x' : Sampler Exact _).prob s' _ = _
  rw [Sampler.prob_pure]
  congr 1
  exact propext (variantOver_replace?_iff hm (hnt a s' ha) hx')

section Sum

variable {weight : Place → Tree Exact → Exact} {v : Place → ℝ}

/-- If an edit comes to a tree only at places off which the tree agrees, only the sites of an edit
count. -/
theorem sum_editSites (hdist : g.DistinctSignatures) (hplain : g.PlainNames)
    (hx : g.Derivable s x) (hy : g.Derivable names y) (hv : ∀ p, ¬ AgreeOff Eq x y p → v p = 0) :
    (x.places.map fun p => x.siteShare weight p * v p).sum =
      ((x.editSites y).map fun p => x.siteShare weight p * v p).sum := by
  obtain ⟨hnodup, hmem⟩ := editSites_spec hdist hplain hx hy
  refine sum_places_eq hnodup (fun p hp => ((hmem p).mp hp).1) fun p hp hnot => ?_
  rw [hv p fun hagree => hnot ?_, mul_zero]
  exact (hmem p).mpr ⟨hp, mayAccount_of_agreeOff hdist hplain hx hy hagree⟩

/-- The numbers are the scores of an edit at some places. Where no place has any weight they are
undefined, since the score of drawing a place is. -/
structure RatedSites (weight : Place → Tree Exact → Exact) (exact : Prop) (x : Tree Exact)
    (v : Place → ℝ) (places : List Place) (lps : List Exact) : Prop where
  rates : 0 < x.siteSum weight →
    RatesSum exact lps (places.map fun p => x.siteShare weight p * v p).sum
  undefined : x.siteSum weight = 0 → ∀ lp ∈ lps, lp = nan

namespace RatedSites

variable {exact : Prop} {places : List Place} {lps : List Exact} {lp : Exact}

theorem nil : RatedSites weight exact x v [] [] := ⟨fun _ => ratesSum_nil, by simp⟩

theorem skip (h : RatedSites weight exact x v places lps) (hzero : x.siteShare weight p * v p = 0) :
    RatedSites weight exact x v (p :: places) lps := by
  refine ⟨fun hpos => ?_, h.undefined⟩
  rw [List.map_cons, List.sum_cons]
  exact (h.rates hpos).skip hzero

theorem cons (h : RatedSites weight exact x v places lps)
    (hrates : 0 < x.siteSum weight → Rates exact lp (x.siteShare weight p * v p))
    (hnan : x.siteSum weight = 0 → lp = nan) :
    RatedSites weight exact x v (p :: places) (lp :: lps) := by
  refine ⟨fun hpos => ?_, fun hzero z hz => ?_⟩
  · rw [List.map_cons, List.sum_cons]
    exact (h.rates hpos).cons (hrates hpos)
  · rcases List.mem_cons.mp hz with rfl | hz
    · exact hnan hzero
    · exact h.undefined hzero z hz

theorem logSumExp (h : RatedSites weight exact x v places lps)
    (hw : ∀ p n, x.get? p = some n → (weight p n).Nonneg) :
    Rates exact (Scalar.logSumExp lps) (places.map fun p => x.siteShare weight p * v p).sum := by
  rcases (siteSum_nonneg hw).eq_or_lt with hzero | hpos
  · rw [sum_siteShare_eq_zero hzero.symm]
    exact rates_logSumExp_nan (h.undefined hzero.symm)
  · exact (h.rates hpos).logSumExp

end RatedSites

theorem siteShare_eq_zero_of_negInf (hw : ∀ p n, x.get? p = some n → (weight p n).Nonneg)
    (hm : x.get? p = some m)
    (h : x.siteLogProbabilityOf (x.siteTotal weight) weight p = negInf) :
    x.siteShare weight p = 0 := by
  rcases (siteSum_nonneg hw).eq_or_lt with hzero | hpos
  · exact siteShare_eq_zero hzero.symm p
  · rw [siteLogProbabilityOf_eq hw hpos hm, logOf_eq_negInf_iff] at h
    exact le_antisymm h (siteShare_nonneg hw p)

end Sum

end Tree

end ScopedGrammar
