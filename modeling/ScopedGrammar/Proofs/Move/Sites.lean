import ScopedGrammar.Move.Site
import ScopedGrammar.Proofs.Lists
import ScopedGrammar.Proofs.Random.Expectation
import ScopedGrammar.Proofs.Scalar.LogMass
import ScopedGrammar.Proofs.Tree.Structure

/-!
# Drawing the site of an edit

Each node is drawn with its share in the total weight, so the probability of an event after the
draw is a sum over the places of the tree. A place that an edit cannot account for adds nothing.
-/
namespace ScopedGrammar

open Exact

namespace SiteWeights

theorem weight_of_child? {K : Type} [Scalar K] {w : SiteWeights K} {t c : Tree K} {i : ℕ}
    (hc : t.child? i = some c) : w.weight t = 1 := by
  have hmem : c ∈ t.children :=
    List.mem_filterMap.mpr ⟨_, Tree.mem_args_of_child? hc, rfl⟩
  have hleaf : t.isLeaf = false := by
    rw [Tree.isLeaf, List.isEmpty_eq_false_iff]
    exact List.ne_nil_of_mem hmem
  cases w with
  | uniform => rfl
  | leaves weight => rw [SiteWeights.weight, hleaf, if_neg Bool.false_ne_true]

/-- Every weight is finite and not negative. -/
def Nonneg : SiteWeights Exact → Prop
  | uniform => True
  | leaves weight => weight.Nonneg

/-- Every weight is finite and positive. -/
def Positive : SiteWeights Exact → Prop
  | uniform => True
  | leaves weight => weight.Positive

variable {w : SiteWeights Exact}

theorem Positive.nonneg (h : w.Positive) : w.Nonneg := by
  cases w with
  | uniform => trivial
  | leaves weight => exact Exact.Positive.nonneg h

theorem Nonneg.weight (h : w.Nonneg) (t : Tree Exact) : (w.weight t).Nonneg := by
  have hone : (1 : Exact).Nonneg := ⟨1, zero_le_one, rfl⟩
  cases w with
  | uniform => exact hone
  | leaves weight =>
    rw [SiteWeights.weight]
    split_ifs
    · exact h
    · exact hone

theorem Positive.weight (h : w.Positive) (t : Tree Exact) : (w.weight t).Positive := by
  have hone : (1 : Exact).Positive := ⟨1, one_pos, rfl⟩
  cases w with
  | uniform => exact hone
  | leaves weight =>
    rw [SiteWeights.weight]
    split_ifs
    · exact h
    · exact hone

end SiteWeights

namespace Tree

/-- The total weight of the sites as a real number. -/
noncomputable def siteSum (weight : Place → Tree Exact → Exact) (t : Tree Exact) : ℝ :=
  (t.subnodes.map fun x => (weight x.1 x.2).toReal).sum

/-- The probability that a place is drawn. -/
noncomputable def siteShare (weight : Place → Tree Exact → Exact) (t : Tree Exact) (p : Place) : ℝ :=
  match t.get? p with
  | some n => (weight p n).toReal / t.siteSum weight
  | none => 0

variable {weight : Place → Tree Exact → Exact} {t n : Tree Exact} {p : Place}

theorem siteShare_eq (hn : t.get? p = some n) :
    t.siteShare weight p = (weight p n).toReal / t.siteSum weight := by
  rw [siteShare, hn]

theorem siteShare_eq_zero (h : t.siteSum weight = 0) (p : Place) : t.siteShare weight p = 0 := by
  unfold siteShare
  split <;> simp [h]

theorem sum_siteShare_eq_zero (h : t.siteSum weight = 0) (places : List Place) (v : Place → ℝ) :
    (places.map fun p => t.siteShare weight p * v p).sum = 0 :=
  sum_map_eq_zero fun p _ => by rw [siteShare_eq_zero h, zero_mul]

section Nonneg

variable (hw : ∀ p n, t.get? p = some n → (weight p n).Nonneg)

include hw

theorem siteTotal_eq : t.siteTotal weight = real (t.siteSum weight) := by
  have hall : ∀ w ∈ t.subnodes.map fun x => weight x.1 x.2, w.Nonneg := by
    intro w hmem
    obtain ⟨⟨p, n⟩, hx, rfl⟩ := List.mem_map.mp hmem
    exact hw p n (mem_subnodes.mp hx)
  rw [siteTotal, sum_eq_real hall, List.map_map]
  rfl

theorem siteSum_nonneg : 0 ≤ t.siteSum weight := by
  refine List.sum_nonneg fun x hx => ?_
  obtain ⟨⟨p, n⟩, hmem, rfl⟩ := List.mem_map.mp hx
  exact (hw p n (mem_subnodes.mp hmem)).toReal_nonneg

theorem siteShare_nonneg (p : Place) : 0 ≤ t.siteShare weight p := by
  unfold siteShare
  split
  · next n hn => exact div_nonneg (hw p n hn).toReal_nonneg (siteSum_nonneg hw)
  · exact le_rfl

theorem siteSum_pos (hn : t.get? p = some n) (hpos : 0 < (weight p n).toReal) :
    0 < t.siteSum weight := by
  refine hpos.trans_le (List.single_le_sum (fun x hx => ?_) _ ?_)
  · obtain ⟨⟨q, m⟩, hmem, rfl⟩ := List.mem_map.mp hx
    exact (hw q m (mem_subnodes.mp hmem)).toReal_nonneg
  · exact List.mem_map.mpr ⟨(p, n), mem_subnodes.mpr hn, rfl⟩

theorem siteLogProbabilityOf_eq (hpos : 0 < t.siteSum weight) (hn : t.get? p = some n) :
    t.siteLogProbabilityOf (t.siteTotal weight) weight p = logOf (t.siteShare weight p) := by
  obtain ⟨r, hr, hreal⟩ := hw p n hn
  have hscore : t.siteLogProbabilityOf (t.siteTotal weight) weight p =
      Scalar.safeLog (weight p n) - Scalar.safeLog (t.siteTotal weight) := by
    rw [siteLogProbabilityOf, hn]
  rw [hscore, siteShare_eq hn, siteTotal_eq hw, hreal, safeLog_real, safeLog_real, toReal_real]
  exact logOf_sub hr hpos

/-- Where no site has any weight, the score of a site is undefined. -/
theorem siteLogProbabilityOf_eq_nan (hzero : t.siteSum weight = 0) (hn : t.get? p = some n) :
    t.siteLogProbabilityOf (t.siteTotal weight) weight p = nan := by
  have hle : (weight p n).toReal ≤ 0 := by
    by_contra hpos
    exact absurd hzero (siteSum_pos hw hn (not_le.mp hpos)).ne'
  obtain ⟨r, hr, hreal⟩ := hw p n hn
  obtain rfl : r = 0 := le_antisymm (by simpa [hreal] using hle) hr
  have hscore : t.siteLogProbabilityOf (t.siteTotal weight) weight p =
      Scalar.safeLog (weight p n) - Scalar.safeLog (t.siteTotal weight) := by
    rw [siteLogProbabilityOf, hn]
  rw [hscore, siteTotal_eq hw, hzero, hreal]
  simp

theorem drawSite_eq_none (hzero : t.siteSum weight = 0) : t.drawSite weight = pure none := by
  rw [drawSite, siteTotal_eq hw, hzero, if_neg (by simp [zero_eq])]

/-- The probability of an event after the draw of a site is summed over the places. Only sites that
may be drawn count. -/
theorem prob_drawSite {α : Type} {f : Option (Place × Tree Exact × Exact) → Sampler Exact α}
    {s : NameSupply} {E : α → Prop} {v : Place → ℝ} (hnone : (f none).prob s E = 0)
    (hsome : ∀ p n l, t.get? p = some n → 0 < (weight p n).toReal →
      (f (some (p, n, l))).prob s E = v p) :
    (t.drawSite weight >>= f).prob s E =
      (t.places.map fun p => t.siteShare weight p * v p).sum := by
  by_cases hpos : 0 < t.siteSum weight
  · have hlt := (zero_lt_real (t.siteSum weight)).mpr hpos
    have hnonneg : ∀ x ∈ t.subnodes, (weight x.1 x.2).Nonneg :=
      fun x hx => hw x.1 x.2 (mem_subnodes.mp hx)
    have hsum : 0 < (t.subnodes.map fun x => (weight x.1 x.2).toReal).sum := hpos
    rw [Sampler.prob_bind, drawSite, siteTotal_eq hw, if_pos hlt, Sampler.mean_bind,
      mean_weightedChoice hnonneg, if_pos hsum, places, List.map_map]
    refine congrArg List.sum (List.map_congr_left fun x hx => ?_)
    obtain ⟨p, n⟩ := x
    have hn := mem_subnodes.mp hx
    change (weight p n).toReal / t.siteSum weight * _ = t.siteShare weight p * v p
    rw [siteShare_eq hn, Option.map_some, Sampler.mean_pure]
    rcases (hw p n hn).toReal_nonneg.eq_or_lt with hzero | hweight
    · rw [← hzero, zero_div, zero_mul, zero_mul]
    · rw [hsome p n _ hn hweight]
  · have hzero : t.siteSum weight = 0 := le_antisymm (not_lt.mp hpos) (siteSum_nonneg hw)
    rw [drawSite_eq_none hw hzero, pure_bind, hnone, sum_siteShare_eq_zero hzero]

end Nonneg

/-- Some site is drawn, if any can be. -/
theorem sum_siteShare (hpos : 0 < t.siteSum weight) :
    (t.places.map (t.siteShare weight)).sum = 1 := by
  have hshare : ∀ x ∈ t.subnodes, t.siteShare weight x.1 =
      (weight x.1 x.2).toReal * (t.siteSum weight)⁻¹ := fun x hx =>
    siteShare_eq (mem_subnodes.mp hx)
  rw [places, List.map_map]
  refine (congrArg List.sum (List.map_congr_left hshare)).trans ?_
  rw [List.sum_map_mul_right]
  exact mul_inv_cancel₀ hpos.ne'

/-- What is certain at each site that may be drawn is certain after the draw. -/
theorem prob_drawSite_eq_one {α : Type} {f : Option (Place × Tree Exact × Exact) → Sampler Exact α}
    {s : NameSupply} {E : α → Prop} (hw : ∀ p n, t.get? p = some n → (weight p n).Nonneg)
    (hpos : 0 < t.siteSum weight) (hnone : (f none).prob s E = 0)
    (hsome : ∀ p n l, t.get? p = some n → 0 < (weight p n).toReal →
      (f (some (p, n, l))).prob s E = 1) : (t.drawSite weight >>= f).prob s E = 1 := by
  rw [prob_drawSite hw hnone hsome]
  simp only [mul_one]
  exact sum_siteShare hpos

theorem average_pos_iff {α : Type} {f : α → ℝ} {xs : List α} (h : ∀ x ∈ xs, 0 ≤ f x) :
    0 < (xs.map f).sum / xs.length ↔ ∃ x ∈ xs, 0 < f x := by
  rw [← sum_map_pos_iff h]
  refine ⟨fun hpos => ?_, fun hpos => div_pos hpos (Nat.cast_pos.mpr ?_)⟩
  · exact lt_of_not_ge fun hle => hpos.not_ge
      (div_nonpos_of_nonpos_of_nonneg hle (Nat.cast_nonneg _))
  · exact List.length_pos_iff.mpr fun hnil => by simp [hnil] at hpos

/-- An edit is possible if it is at a place that may be drawn. -/
theorem sum_siteShare_pos_iff (hw : ∀ p n, t.get? p = some n → (weight p n).Nonneg)
    {v : Place → ℝ} (hv : ∀ p, 0 ≤ v p) :
    0 < (t.places.map fun p => t.siteShare weight p * v p).sum ↔
      ∃ p, 0 < t.siteShare weight p ∧ 0 < v p := by
  rw [sum_map_pos_iff fun p _ => mul_nonneg (siteShare_nonneg hw p) (hv p)]
  constructor
  · rintro ⟨p, -, hpos⟩
    have hshare := (siteShare_nonneg hw p).lt_of_ne' (left_ne_zero_of_mul hpos.ne')
    exact ⟨p, hshare, (hv p).lt_of_ne' (right_ne_zero_of_mul hpos.ne')⟩
  · rintro ⟨p, hshare, hpos⟩
    refine ⟨p, mem_places.mpr ?_, mul_pos hshare hpos⟩
    by_contra hnone
    rw [siteShare, Option.not_isSome_iff_eq_none.mp hnone] at hshare
    exact lt_irrefl _ hshare

theorem sum_places_eq {sites : List Place} {f : Place → ℝ} (hnodup : sites.Nodup)
    (hsub : ∀ p ∈ sites, (t.get? p).isSome)
    (hzero : ∀ p, (t.get? p).isSome → p ∉ sites → f p = 0) :
    (t.places.map f).sum = (sites.map f).sum := by
  rw [← List.sum_toFinset f (nodup_places t), ← List.sum_toFinset f hnodup]
  refine (Finset.sum_subset (fun p hp => ?_) fun p hp hp' => ?_).symm
  · rw [List.mem_toFinset] at hp ⊢
    exact mem_places.mpr (hsub p hp)
  · rw [List.mem_toFinset] at hp hp'
    exact hzero p (mem_places.mp hp) hp'

end Tree

/-- Where all weights are positive, every place may be drawn. -/
theorem SiteWeights.Positive.siteShare_pos {w : SiteWeights Exact} (hw : w.Positive)
    {t n : Tree Exact} {p : Place} (hn : t.get? p = some n) :
    0 < t.siteShare (fun _ n => w.weight n) p := by
  have hpos := (hw.weight n).toReal_pos
  rw [Tree.siteShare_eq hn]
  exact div_pos hpos (Tree.siteSum_pos (fun _ k _ => hw.nonneg.weight k) hn hpos)

end ScopedGrammar
