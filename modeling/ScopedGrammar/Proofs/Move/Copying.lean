import ScopedGrammar.Proofs.Grammar.Renewal
import ScopedGrammar.Proofs.Move.Graft
import ScopedGrammar.Proofs.Move.Rating
import ScopedGrammar.Proofs.Tree.Shifted

/-!
# Copying

The score of copying rates the probability that it turns one tree into a variant of another, summed
over the pairs of a source and a target that sees the same variables. A copy corresponds to its
source, so the pairs that count are those at which the second tree has at the target what the first
one has at the source.
-/
namespace ScopedGrammar.Copying

open Exact ScopedGrammar.Tree

section Spots

variable {K : Type} {t m n : Tree K} {p q : Place}

/-- The spot of the node at a place. -/
def spotAt (t : Tree K) (p : Place) (n : Tree K) : Spot :=
  ⟨p, n.nonterminal, ((t.variablesAbove p).map (·.name)).mergeSort fun a b => !decide (b < a)⟩

theorem spots_eq (t : Tree K) : spots t = t.subnodes.map fun x => spotAt t x.1 x.2 := by
  rw [spots, nodesInScope_eq, List.map_map]
  rfl

theorem mem_spots {x : Spot} :
    x ∈ spots t ↔ ∃ n, t.get? x.place = some n ∧ x = spotAt t x.place n := by
  rw [spots_eq, List.mem_map]
  constructor
  · rintro ⟨⟨p, n⟩, hn, rfl⟩
    exact ⟨n, mem_subnodes.mp hn, rfl⟩
  · rintro ⟨n, hn, heq⟩
    exact ⟨(x.place, n), mem_subnodes.mpr hn, heq.symm⟩

theorem map_place_spots (t : Tree K) : (spots t).map (·.place) = t.places := by
  rw [spots_eq, List.map_map]
  rfl

/-- Where a copy fits, the same names are visible. -/
theorem fits_iff_of_spots : (spotAt t p m).fits (spotAt t q n) = true →
    n.nonterminal = m.nonterminal ∧
      ∀ x, x ∈ (t.variablesAbove p).map (·.name) ↔ x ∈ (t.variablesAbove q).map (·.name) := by
  intro h
  simp only [Spot.fits, spotAt, Bool.and_eq_true, beq_iff_eq] at h
  refine ⟨h.1, fun x => ?_⟩
  have hsorted := (List.mergeSort_perm ((t.variablesAbove q).map (·.name)) fun a b =>
    !decide (b < a)).mem_iff (a := x)
  have hsorted' := (List.mergeSort_perm ((t.variablesAbove p).map (·.name)) fun a b =>
    !decide (b < a)).mem_iff (a := x)
  rw [h.2] at hsorted
  exact hsorted'.symm.trans hsorted

theorem fits_self (x : Spot) : x.fits x = true := by simp [Spot.fits]

theorem targets_eq (hm : t.get? p = some m) :
    targets t p = ((spots t).filter (spotAt t p m).fits).map (·.place) := by
  have hfind : ((spots t).find? fun x => x.place == p) = some (spotAt t p m) := by
    have hmem : spotAt t p m ∈ spots t := mem_spots.mpr ⟨m, hm, rfl⟩
    cases hfound : (spots t).find? fun x => x.place == p with
    | none => simpa [spotAt] using List.find?_eq_none.mp hfound _ hmem
    | some x =>
      have hplace : x.place = p := by simpa using List.find?_some hfound
      obtain ⟨n, hn, hx⟩ := mem_spots.mp (List.mem_of_find?_eq_some hfound)
      rw [hplace] at hn hx
      rw [hx, Option.some.inj (hm.symm.trans hn)]
  rw [targets, hfind]

end Spots

section Graft

variable {K : Type} {g : Grammar K} {s s' names : NameSupply} {x y m n : Tree K} {p q : Place}

theorem mem_above_of_names {S : Scope K} (hx : g.Derived names S x) (hm : x.get? p = some m)
    (hn : x.get? q = some n)
    (hnames : ∀ z, z ∈ (x.variablesAbove p).map (·.name) ↔ z ∈ (x.variablesAbove q).map (·.name))
    {v : Rule K} (hv : v ∈ x.variablesAbove p) : v ∈ x.variablesAbove q := by
  obtain ⟨w, hw, heq⟩ := List.mem_map.mp ((hnames v.name).mp (List.mem_map_of_mem hv))
  obtain ⟨rfl, -⟩ := eq_of_name_eq_above hx hm hn hv hw heq.symm 0
  exact hw

/-- Where a copy fits it is put, with fresh names. -/
theorem graftCopy_eq (hx : g.Derivable s x) (hle : s.issued ≤ s'.issued) (hm : x.get? p = some m)
    (hn : x.get? q = some n) (hfits : (spotAt x p m).fits (spotAt x q n) = true) :
    ∃ x', x.replace? q (m.uniquify s').1 = some x' ∧
      x.graftCopy p q s' = (.ok x', (m.uniquify s').2) := by
  obtain ⟨-, hnames⟩ := fits_iff_of_spots hfits
  have hdm := hx.derived_at hm
  obtain ⟨hcopy, -⟩ := hdm.uniquify hle
  obtain ⟨x', hx'⟩ := Option.isSome_iff_exists.mp
    ((isSome_replace? x (m.uniquify s').1 q).trans (by rw [hn]; rfl))
  refine ⟨x', hx', ?_⟩
  have hvisible : ((m.uniquify s').1.freeVariables.all
      ((x.variablesAbove q).map (·.name)).contains) = true := by
    refine List.all_eq_true.mpr fun z hz => ?_
    rw [freeVariables, List.mem_eraseDups] at hz
    exact List.contains_iff_mem.mpr ((hnames z).mp (hcopy.mem_scope_of_mem_freeUses hz))
  rw [graftCopy_apply hm, if_pos hvisible, hx']

/-- A copy comes to a variant of a tree that agrees off the target if the tree has there what the
first one has at the source. -/
theorem variant_copied_iff (hdist : g.DistinctSignatures) (hplain : g.PlainNames)
    (hx : g.Derivable s x) (hy : g.Derivable names y) (hle : s.issued ≤ s'.issued)
    (hm : x.get? p = some m) (hn : x.get? q = some n)
    (hfits : (spotAt x p m).fits (spotAt x q n) = true) {x' : Tree K}
    (hx' : x.replace? q (m.uniquify s').1 = some x') :
    x'.Variant y ↔ AgreeOff Eq x y q ∧ x.alikeAt p y q = true := by
  obtain ⟨hnt, hnames⟩ := fits_iff_of_spots hfits
  have hdm := hx.derived_at hm
  obtain ⟨-, hvar, -, -⟩ := hdm.uniquify hle
  rw [Variant, variantOver_replace?_iff hn (hvar.nonterminal_eq.symm.trans hnt.symm) hx']
  refine and_congr_right fun hagree => ?_
  obtain ⟨-, k, hk⟩ := hagree.headsAlong.exists_get?
  have hdk := hy.derived_at hk
  rw [hk]
  simp only [Option.some.injEq, exists_eq_left', ← hvar.congr_over]
  refine (alikeAt_iff_of_printed hdist hplain hx hy hm hk fun a ha b hb => ?_).symm
  obtain ⟨v, hv, rfl⟩ := List.mem_map.mp (hdm.mem_scope_of_mem_freeUses ha)
  obtain ⟨w, hw, rfl⟩ := List.mem_map.mp (hdk.mem_scope_of_mem_freeUses hb)
  have hv' := mem_above_of_names hx.toDerived hm hn hnames hv
  have hprinted := (eq_of_name_eq_above hx.toDerived hm hn hv hv' rfl 0).2
  rw [printedAlike, hprinted]
  exact hagree.headsAlong.apply_eq_iff hx.toDerived hy.toDerived (.nil Eq) (hx.plainNames hplain)
    (hy.plainNames hplain) 0 hv' hw

end Graft

section Pairs

variable {K : Type}

/-- The targets that count for a source: those that may account for the differences and at which
the second tree has what the first one has at the source. -/
def edits (x y : Tree K) (source : Spot) : List (Spot × Option String) :=
  (((spots x).filter fun z => mayAccount (x.leastCommonDifference y) z.place).map fun z =>
    (z, y.canonicalAt z.place)).filter fun target =>
      source.fits target.1 && sameText (x.canonicalAt source.place) target.2

variable [Scalar K]

/-- The score of the pairs of one source. -/
def sourceLogProbability (w : SiteWeights K) (x : Tree K) (source : Spot) : K :=
  x.siteLogProbabilityOf (x.siteTotal fun _ n => w.weight n) (fun _ n => w.weight n) source.place
    - Scalar.log (Scalar.ofNat ((spots x).countP source.fits))

theorem pairLogProbabilities_eq (w : SiteWeights K) (x y : Tree K) :
    pairLogProbabilities w x y = (spots x).flatMap fun source =>
      (edits x y source).map fun _ => sourceLogProbability w x source := rfl

end Pairs

variable {g : Grammar Exact} {w : SiteWeights Exact} {s s' names : NameSupply}
  {x y m n : Tree Exact} {p q : Place}

open Classical in
/-- The probability that copying from a place comes to a variant of a tree. -/
noncomputable def probAt (x y : Tree Exact) (p : Place) : ℝ :=
  match x.get? p with
  | some m =>
      (((spots x).filter (spotAt x p m).fits).filter fun target =>
        AgreeOff Eq x y target.place ∧ x.alikeAt p y target.place = true).length /
          (spots x).countP (spotAt x p m).fits
  | none => 0

open Classical in
/-- Copying from a place that was drawn comes to a variant of a tree with the probability of the
place. -/
theorem prob_site (hdist : g.DistinctSignatures) (hplain : g.PlainNames)
    (hx : g.Derivable s x) (hy : g.Derivable names y) (hle : s.issued ≤ s'.issued)
    (hm : x.get? p = some m) :
    (uniformChoice (targets x p) >>= fun target =>
      Sampler.getOrFail .proposalFailed target >>= fun target =>
        Sampler.ofNamingExcept (x.graftCopy p target)).prob s' (fun t => t.Variant y) =
      probAt x y p := by
  rw [prob_uniformChoice_getOrFail, probAt, hm, targets_eq hm, List.map_map, List.length_map]
  dsimp only
  rw [List.countP_eq_length_filter, ← sum_map_ite_one]
  congr 2
  refine List.map_congr_left fun target htarget => ?_
  obtain ⟨hmem, hfits⟩ := List.mem_filter.mp htarget
  obtain ⟨n, hn, hspot⟩ := mem_spots.mp hmem
  rw [hspot] at hfits
  obtain ⟨x', hx', hgraft⟩ := graftCopy_eq hx hle hm hn hfits
  have hiff := variant_copied_iff hdist hplain hx hy hle hm hn hfits hx'
  dsimp only [Function.comp]
  rw [Sampler.prob_eq_mean, Sampler.mean_ofNamingExcept, hgraft]
  exact if_congr hiff rfl rfl

theorem prob_propose (hdist : g.DistinctSignatures) (hplain : g.PlainNames) (hw : w.Nonneg)
    (hx : g.Derivable s x) (hy : g.Derivable names y) (hle : s.issued ≤ s'.issued) :
    (propose w x).prob s' (fun t => t.Variant y) =
      (x.places.map fun p => x.siteShare (fun _ n => w.weight n) p * probAt x y p).sum := by
  refine prob_drawSite (fun _ k _ => hw.weight k) (Sampler.prob_throw ..) fun p m l hm _ => ?_
  exact prob_site hdist hplain hx hy hle hm

theorem length_edits (x y : Tree Exact) (source : Spot) : (edits x y source).length =
    (((spots x).filter source.fits).filter fun target =>
      mayAccount (x.leastCommonDifference y) target.place &&
        x.alikeAt source.place y target.place).length := by
  rw [edits, List.filter_map, List.length_map, List.filter_filter, List.filter_filter]
  refine congrArg List.length (List.filter_congr fun z _ => ?_)
  simp only [Function.comp, alikeAt]
  rw [Bool.and_comm, Bool.and_comm (source.fits z), Bool.and_assoc]

open Classical in
/-- The pairs of a source are rated by what copying from there comes to. -/
theorem ratesSum_source (hdist : g.DistinctSignatures) (hplain : g.PlainNames) (hw : w.Nonneg)
    (hx : g.Derivable s x) (hy : g.Derivable names y)
    (hpos : 0 < x.siteSum fun _ n => w.weight n) {source : Spot} (hsource : source ∈ spots x) :
    RatesSum (g.Complete x ∧ g.Complete y)
      ((edits x y source).map fun _ => sourceLogProbability w x source)
      (x.siteShare (fun _ n => w.weight n) source.place * probAt x y source.place) := by
  have hweight : ∀ q k, x.get? q = some k → (w.weight k).Nonneg := fun _ k _ => hw.weight k
  obtain ⟨m, hm, hspot⟩ := mem_spots.mp hsource
  have hshare := siteShare_nonneg hweight source.place
  have hcount : (0 : ℝ) < (spots x).countP source.fits :=
    Nat.cast_pos.mpr (List.countP_pos_iff.mpr ⟨source, hsource, fits_self source⟩)
  have hprob : x.siteShare (fun _ n => w.weight n) source.place * probAt x y source.place =
      (((spots x).filter source.fits).filter fun target =>
        AgreeOff Eq x y target.place ∧ x.alikeAt source.place y target.place = true).length *
          (x.siteShare (fun _ n => w.weight n) source.place / (spots x).countP source.fits) := by
    rw [probAt, hm]
    dsimp only
    rw [← hspot]
    ring
  have hscore : sourceLogProbability w x source =
      logOf (x.siteShare (fun _ n => w.weight n) source.place / (spots x).countP source.fits) := by
    rw [sourceLogProbability, siteLogProbabilityOf_eq hweight hpos hm, ofNat_eq,
      log_real_eq_logOf hcount, logOf_sub hshare hcount]
  -- only pairs at which the trees agree add to the probability, and these are all scored
  have hsub : ∀ target : Spot, AgreeOff Eq x y target.place →
      mayAccount (x.leastCommonDifference y) target.place = true := fun target hagree =>
    mayAccount_of_agreeOff hdist hplain hx hy hagree
  have hshared := div_nonneg hshare hcount.le
  rw [hscore, hprob]
  refine ratesSum_const hshared ?_ fun hreach => ?_
  · refine mul_le_mul_of_nonneg_right (Nat.cast_le.mpr ?_) hshared
    rw [length_edits, ← List.countP_eq_length_filter, ← List.countP_eq_length_filter]
    refine List.countP_mono_left fun target _ htarget => ?_
    obtain ⟨hagree, halike⟩ := of_decide_eq_true htarget
    rw [hsub target hagree, halike]
    rfl
  · rw [length_edits]
    congr 3
    refine List.filter_congr fun target htarget => ?_
    obtain ⟨n, hn, -⟩ := mem_spots.mp (List.mem_of_mem_filter htarget)
    have hagree : AgreeOff Eq x y target.place ↔
        mayAccount (x.leastCommonDifference y) target.place = true :=
      ⟨hsub target, agreeOff_of_mayAccount hdist hplain hx hy hreach.1 hreach.2 hn⟩
    rw [hagree, Bool.decide_and, Bool.decide_eq_true, Bool.decide_eq_true]

/-- The score of copying rates its probability. -/
theorem rates_propose (hdist : g.DistinctSignatures) (hplain : g.PlainNames) (hw : w.Nonneg)
    (hx : g.Derivable s x) (hy : g.Derivable names y) (hle : s.issued ≤ s'.issued) :
    Rates (g.Complete x ∧ g.Complete y) (logProbability w x y)
      ((propose w x).prob s' fun t => t.Variant y) := by
  have hweight : ∀ q k, x.get? q = some k → (w.weight k).Nonneg := fun _ k _ => hw.weight k
  rw [prob_propose hdist hplain hw hx hy hle, logProbability, pairLogProbabilities_eq]
  rcases (siteSum_nonneg hweight).eq_or_lt with hzero | hpos
  · rw [sum_siteShare_eq_zero hzero.symm]
    refine rates_logSumExp_nan fun z hz => ?_
    obtain ⟨source, hsource, hz⟩ := List.mem_flatMap.mp hz
    obtain ⟨target, -, rfl⟩ := List.mem_map.mp hz
    obtain ⟨m, hm, -⟩ := mem_spots.mp hsource
    rw [sourceLogProbability, siteLogProbabilityOf_eq_nan hweight hzero.symm hm, nan_sub]
  · rw [← map_place_spots, List.map_map]
    exact (ratesSum_flatMap fun source hsource =>
      ratesSum_source hdist hplain hw hx hy hpos hsource).logSumExp

end ScopedGrammar.Copying
