import ScopedGrammar.Move.Deletion
import ScopedGrammar.Proofs.Move.Rating
import ScopedGrammar.Proofs.Tree.Shifted

/-!
# Deletion

The score of deletion rates the probability that it turns one tree into a variant of another: at
each place that may account for the differences, the share of the arguments that can take the place
of the node and are alike to what the second tree has there.
-/
namespace ScopedGrammar.Deletion

open Exact ScopedGrammar.Tree

section Slots

variable {K : Type} {g : Grammar K} {s names : NameSupply} {t x y m : Tree K} {p : Place} {i : ℕ}

theorem mem_promotableSlots : i ∈ promotableSlots t ↔ ∃ c, t.child? i = some c ∧
    c.nonterminal = t.nonterminal ∧ ∀ v, t.introduced? = some v → v.name ∉ c.freeUses [] := by
  simp only [promotableSlots, List.mem_map, List.mem_filter, Bool.and_eq_true, beq_iff_eq,
    Option.all_eq_true, Bool.not_eq_true', List.contains_eq_mem, decide_eq_false_iff_not,
    freeVariables, List.mem_eraseDups, Prod.exists, mem_childrenWithIndex]
  constructor
  · rintro ⟨j, c, ⟨hc, hnt, hfree⟩, rfl⟩
    exact ⟨c, hc, hnt, hfree⟩
  · rintro ⟨c, hc, hnt, hfree⟩
    exact ⟨i, c, ⟨hc, hnt, hfree⟩, rfl⟩

/-- The arguments at a place that are alike to what another tree has there. -/
def matchingSlots (x y m : Tree K) (p : Place) : List ℕ :=
  (promotableSlots m).filter fun slot => x.alikeAt (p ++ [slot]) y p

/-- A promoted argument comes to a variant of a tree that agrees off the place if it is alike to
what the tree has there. -/
theorem variant_promoted_iff (hdist : g.DistinctSignatures) (hplain : g.PlainNames)
    (hx : g.Derivable s x) (hy : g.Derivable names y) (hm : x.get? p = some m) {slot : ℕ}
    (hslot : slot ∈ promotableSlots m) :
    ∃ c x', m.child? slot = some c ∧ x.replace? p c = some x' ∧
      (x'.Variant y ↔ AgreeOff Eq x y p ∧ x.alikeAt (p ++ [slot]) y p = true) := by
  obtain ⟨c, hc, hnt, hfree⟩ := mem_promotableSlots.mp hslot
  obtain ⟨x', hx'⟩ := Option.isSome_iff_exists.mp
    ((isSome_replace? x c p).trans (by rw [hm]; rfl))
  refine ⟨c, x', hc, hx', ?_⟩
  rw [Variant, variantOver_replace?_iff hm hnt hx']
  refine and_congr_right fun hagree => ?_
  obtain ⟨-, n, hn⟩ := hagree.headsAlong.exists_get?
  rw [hagree.headsAlong.argument_alikeAt_iff hdist hplain hx hy hm hn hc hfree, hn]
  simp

theorem siteLogProbabilities_cons [Scalar K] {w : SiteWeights K} {total : K} {places : List Place} (hm : x.get? p = some m) :
    siteLogProbabilities w total x y (p :: places) =
      if (matchingSlots x y m p).isEmpty then siteLogProbabilities w total x y places
      else (x.siteLogProbabilityOf total (siteWeight w) p
        + Scalar.log (Scalar.ofNat (matchingSlots x y m p).length)
        - Scalar.log (Scalar.ofNat (promotableSlots m).length)) ::
          siteLogProbabilities w total x y places := by
  simp only [siteLogProbabilities, List.filterMap_cons, hm, matchingSlots]
  split_ifs <;> rfl

theorem siteWeight_of_promotable [Scalar K] {w : SiteWeights K} (hslots : promotableSlots m ≠ []) :
    siteWeight w p m = 1 := by
  obtain ⟨i, hi⟩ := List.exists_mem_of_ne_nil _ hslots
  obtain ⟨c, hc, -⟩ := mem_promotableSlots.mp hi
  rw [siteWeight, if_neg (by simpa using hslots), SiteWeights.weight_of_child? hc]

end Slots

variable {g : Grammar Exact} {w : SiteWeights Exact} {s names : NameSupply}
  {x y m n : Tree Exact} {p : Place}

open Classical in
/-- The probability that deleting the node at a place comes to a variant of a tree. -/
noncomputable def probAt (x y : Tree Exact) (p : Place) : ℝ :=
  match x.get? p with
  | some m =>
      if AgreeOff Eq x y p then
        ((matchingSlots x y m p).length : ℝ) / (promotableSlots m).length
      else 0
  | none => 0

theorem probAt_eq_zero (h : ¬ AgreeOff Eq x y p) : probAt x y p = 0 := by
  unfold probAt
  split
  · exact if_neg h
  · rfl

theorem weight_nonneg (hw : w.Nonneg) (q : Place) (k : Tree Exact) : (siteWeight w q k).Nonneg := by
  unfold siteWeight
  split_ifs
  · exact ⟨0, le_rfl, zero_eq⟩
  · exact hw.weight k

open Classical in
/-- What deletion does at a place that was drawn comes to a variant of a tree with the probability
of the place. -/
theorem prob_site (hdist : g.DistinctSignatures) (hplain : g.PlainNames)
    (hx : g.Derivable s x) (hy : g.Derivable names y) (hm : x.get? p = some m) (s' : NameSupply) :
    (uniformChoice (promotableSlots m) >>= fun slot =>
      Sampler.getOrFail .proposalFailed ((slot.bind m.child?).bind (x.replace? p))).prob s'
        (fun t => t.Variant y) = probAt x y p := by
  rw [prob_uniformChoice (Sampler.prob_throw ..), probAt, hm]
  have hterm : ∀ slot ∈ promotableSlots m, (Sampler.getOrFail .proposalFailed
      (((some slot).bind m.child?).bind (x.replace? p))).prob s' (fun t => t.Variant y) =
        if AgreeOff Eq x y p ∧ x.alikeAt (p ++ [slot]) y p = true then 1 else 0 := by
    intro slot hslot
    obtain ⟨c, x', hc, hx', hiff⟩ := variant_promoted_iff hdist hplain hx hy hm hslot
    rw [Option.bind_some, hc, Option.bind_some, hx']
    change (pure x' : Sampler Exact _).prob s' _ = _
    rw [Sampler.prob_pure]
    exact if_congr hiff rfl rfl
  rw [List.map_congr_left hterm]
  by_cases hagree : AgreeOff Eq x y p
  · simp only [hagree, true_and, if_true]
    rw [sum_map_ite_one]
    simp only [matchingSlots, Bool.decide_eq_true]
  · simp [hagree]

theorem prob_propose (hdist : g.DistinctSignatures) (hplain : g.PlainNames) (hw : w.Nonneg)
    (hx : g.Derivable s x) (hy : g.Derivable names y) (s' : NameSupply) :
    (propose w x).prob s' (fun t => t.Variant y) =
      (x.places.map fun p => x.siteShare (siteWeight w) p * probAt x y p).sum := by
  refine prob_drawSite (fun q k _ => weight_nonneg hw q k) (Sampler.prob_throw ..)
    fun p m l hm _ => ?_
  exact prob_site hdist hplain hx hy hm s'

/-- The share of the alike arguments is rated together with the choice of the place. -/
theorem rates_matching (hw : w.Nonneg) {exact : Prop} (hm : x.get? p = some m)
    (hagree : exact → AgreeOff Eq x y p) (hsome : matchingSlots x y m p ≠ []) :
    Rates exact (logOf (x.siteShare (siteWeight w) p)
        + Scalar.log (Scalar.ofNat (matchingSlots x y m p).length)
        - Scalar.log (Scalar.ofNat (promotableSlots m).length))
      (x.siteShare (siteWeight w) p * probAt x y p) := by
  have hmatch : (0 : ℝ) < (matchingSlots x y m p).length :=
    Nat.cast_pos.mpr (List.length_pos_iff.mpr hsome)
  have hslots : (0 : ℝ) < (promotableSlots m).length :=
    hmatch.trans_le (Nat.cast_le.mpr (List.length_filter_le _ _))
  have hshare : 0 ≤ x.siteShare (siteWeight w) p :=
    siteShare_nonneg (fun q k _ => weight_nonneg hw q k) p
  rw [ofNat_eq, ofNat_eq, log_real_eq_logOf hmatch, log_real_eq_logOf hslots,
    logOf_add hshare hmatch.le, logOf_sub (mul_nonneg hshare hmatch.le) hslots, mul_div_assoc]
  refine (rates_logOf (by positivity) : Rates exact _ _).of_le ?_ fun h => ⟨h, ?_⟩
  · refine mul_le_mul_of_nonneg_left ?_ hshare
    rw [probAt, hm]
    dsimp only
    split_ifs
    · exact le_rfl
    · positivity
  · rw [probAt, hm]
    exact congrArg _ (if_pos (hagree h))

/-- Place by place the scores rate the probabilities. -/
theorem ratedSites_siteLogProbabilities (hw : w.Nonneg) {exact : Prop} {places : List Place}
    (hplaces : ∀ p ∈ places, (x.get? p).isSome ∧ (exact → AgreeOff Eq x y p)) :
    RatedSites (siteWeight w) exact x (probAt x y) places
      (siteLogProbabilities w (x.siteTotal (siteWeight w)) x y places) := by
  have hweight : ∀ q k, x.get? q = some k → (siteWeight w q k).Nonneg :=
    fun q k _ => weight_nonneg hw q k
  induction places with
  | nil => exact .nil
  | cons p places ih =>
    have hrest := ih fun q hq => hplaces q (List.mem_cons_of_mem p hq)
    obtain ⟨hsome, hagree⟩ := hplaces p List.mem_cons_self
    obtain ⟨m, hm⟩ := Option.isSome_iff_exists.mp hsome
    rw [siteLogProbabilities_cons hm]
    by_cases hnone : matchingSlots x y m p = []
    · rw [if_pos (by rw [hnone]; rfl)]
      refine hrest.skip ?_
      rw [probAt, hm]
      simp [hnone]
    · rw [if_neg (by simpa using hnone)]
      refine hrest.cons (fun hpos => ?_) fun hzero => ?_
      · rw [siteLogProbabilityOf_eq hweight hpos hm]
        exact rates_matching hw hm hagree hnone
      · rw [siteLogProbabilityOf_eq_nan hweight hzero hm, nan_add, nan_sub]

/-- Nothing is deleted from a tree that stays the same. -/
theorem probAt_eq_zero_of_variant (hdist : g.DistinctSignatures) (hplain : g.PlainNames)
    (hx : g.Derivable s x) (hy : g.Derivable names y) (h : x.Variant y) (p : Place) :
    probAt x y p = 0 := by
  unfold probAt
  split
  · next m hm =>
    have hnone : matchingSlots x y m p = [] := by
      refine List.filter_eq_nil_iff.mpr fun slot hslot halike => ?_
      obtain ⟨hagree, n, hn, hmn⟩ := VariantOver.at_place h hm
      obtain ⟨c, hc, -, hfree⟩ := mem_promotableSlots.mp hslot
      have hcn := (hagree.headsAlong.argument_alikeAt_iff hdist hplain hx hy hm hn hc
        hfree).mp halike
      have hlt := countNodes_lt_of_child? hc
      rw [hcn.countNodes_eq, hmn.countNodes_eq] at hlt
      omega
    simp [hnone]
  · rfl

/-- The score of deletion rates its probability. -/
theorem rates_propose (hdist : g.DistinctSignatures) (hplain : g.PlainNames) (hw : w.Nonneg)
    (hx : g.Derivable s x) (hy : g.Derivable names y) :
    Rates (g.Complete x ∧ g.Complete y) (logProbability w x y)
      ((propose w x).prob s fun t => t.Variant y) := by
  rw [prob_propose hdist hplain hw hx hy]
  by_cases hvar : x.Variant y
  · have hnone := (leastCommonDifference_eq_none_iff hdist hplain hx hy).mpr hvar
    have hzero : (x.places.map fun p => x.siteShare (siteWeight w) p * probAt x y p).sum = 0 :=
      sum_map_eq_zero fun p _ => by
        rw [probAt_eq_zero_of_variant hdist hplain hx hy hvar, mul_zero]
    rw [logProbability, hnone, hzero]
    exact ⟨0, le_rfl, logOf_zero.symm, le_rfl, fun _ => rfl⟩
  · obtain ⟨q, hq, -⟩ := exists_leastCommonDifference hdist hplain hx hy hvar
    have hsites : x.editSites y = q.upTo := by rw [editSites, hq]
    have hrated : RatedSites (siteWeight w) (g.Complete x ∧ g.Complete y) x (probAt x y)
        (x.editSites y) (siteLogProbabilities w (x.siteTotal (siteWeight w)) x y (x.editSites y)) :=
      ratedSites_siteLogProbabilities hw (of_mem_editSites hdist hplain hx hy)
    rw [sum_editSites hdist hplain hx hy fun p => probAt_eq_zero, logProbability, hq]
    rw [hsites] at hrated ⊢
    exact hrated.logSumExp fun q k _ => weight_nonneg hw q k

end ScopedGrammar.Deletion
