import ScopedGrammar.Proofs.Move.Accuracy
import ScopedGrammar.Proofs.Move.FiniteScore
import ScopedGrammar.Proofs.Move.Proposal
import ScopedGrammar.Proofs.Move.Totals

/-!
# Insertion and deletion undo each other

Insertion is scored from a tree to another, and deletion from the other back, exactly if the other
encloses a subtree of the first. However numbers are rounded, these scores are finite as long as no
sum of weights overflows. So a kernel that may move as both has finite scores in both directions for
whatever either of them makes.
-/
namespace ScopedGrammar

open Scalar ScopedGrammar.Tree

section Rounded

variable {K : Type} [Scalar K] {limit : ℕ} {g : Grammar K} {w : SiteWeights K}
  {s s' names : NameSupply} {x y t : Tree K} {k : Kernel K}

omit [Scalar K] in
theorem Kernel.scoreSize_comm (g : Grammar K) (x y : Tree K) (k : Kernel K) :
    k.scoreSize g x y = k.scoreSize g y x := by
  rw [scoreSize, scoreSize, Grammar.moveSize_comm]

variable (hK : Rounded K limit) (hdist : g.DistinctSignatures) (hplain : g.PlainNames)
  (hg : g.IsWeighted) (hw : w.IsWeighted)

include hK hdist hplain hg hw

/-- Whatever may move as insertion and as deletion has finite scores in both directions between a
tree and another that encloses a subtree of it. -/
theorem Kernel.logSum_of_encloses (hx : g.Generable s [] x) (hy : g.Generable names [] y)
    (hxt : g.FiniteTotals w x) (hyt : g.FiniteTotals w y) (hk : k.IsWeighted)
    (hinsert : MayMoveAs .insert k) (hdelete : MayMoveAs .delete k)
    (hsize : k.scoreSize g x y ≤ limit) (h : ∃ p slot, x.Encloses y p slot) :
    (∃ lp, k.logProbability g w x y = .ok lp ∧ LogSum (k.scoreSize g x y) lp) ∧
      ∃ lp, k.logProbability g w y x = .ok lp ∧ LogSum (k.scoreSize g x y) lp := by
  have hmove : g.moveSize x y ≤ limit := (Nat.le_add_right _ _).trans hsize
  obtain ⟨lp, hlp, hscored⟩ :=
    Insertion.exists_scored hK hdist hplain hg hw hx hy hxt.sites hyt hmove
  rw [scoreSize_comm] at hsize
  have hback := Deletion.scored_logProbability (w := w) hK hdist hplain hy hx
    ((Nat.le_add_right _ _).trans hsize)
  refine ⟨?_, ?_⟩
  · exact hinsert.logSum hK hdist hplain hg hw hx hy hxt.sites hyt hk (k.scoreSize_comm g x y ▸ hsize)
      hlp (hscored.1 h)
  · rw [scoreSize_comm]
    exact hdelete.logSum hK hdist hplain hg hw hy hx hyt.sites hxt hk hsize rfl (hback.1 h)

/-- Insertion and deletion undo each other: insertion may turn a tree into another exactly if
deletion may turn that back. So if a mixture gives both of them positive weight, however deep
inside, whatever either of them makes of a tree has a finite log-ratio. This holds as long as no sum
of weights overflows in the trees, and the trees are within the limit of the arithmetic. -/
theorem insert_iff_delete (hx : g.Generable s [] x) (hxt : g.FiniteTotals w x) :
    (∀ names y, g.Generable names [] y → g.FiniteTotals w y → g.moveSize x y ≤ limit →
      ∃ lp, Insertion.logProbability g w x y = .ok lp ∧
        (lt negInf lp = true ↔ lt negInf (Deletion.logProbability w y x) = true)) ∧
    ∀ p : Proposer K, p.sites = w → p.kernel.IsWeighted → Kernel.MayMoveAs .insert p.kernel →
      Kernel.MayMoveAs .delete p.kernel → ∀ t s',
        (Insertion.propose g w x).Yields s (.ok t) s' ∨ (Deletion.propose w x).Yields s (.ok t) s' →
        g.FiniteTotals w t → 2 * p.kernel.scoreSize g x t ≤ limit →
          ∃ fb, p.forwardBackward g x t = .ok fb ∧ isFinite fb = true := by
  have hdx := hx.derivable hplain
  constructor
  · intro names y hy hyt hsize
    obtain ⟨lp, hlp, hscored⟩ :=
      Insertion.exists_scored hK hdist hplain hg hw hx hy hxt.sites hyt hsize
    rw [Grammar.moveSize_comm] at hsize
    have hback := Deletion.scored_logProbability (w := w) hK hdist hplain hy hx hsize
    refine ⟨lp, hlp, ?_⟩
    rw [hK.negInf_lt_iff hback hsize]
    exact hK.negInf_lt_iff hscored (Grammar.moveSize_comm g x y ▸ hsize)
  · rintro p rfl hk hinsert hdelete t s' hmade htt hsize
    have hkept : g.Kept x t s' := hmade.elim
      (fun h => ((Insertion.leads_propose hplain hdx).of_ok h).2)
      fun h => ((Deletion.leads_propose hdx).of_ok h).2
    have ht : g.Generable s' [] t := ⟨hkept.derivable.toDerived, hkept.complete hx.complete⟩
    have hscores : (∃ lp, p.kernel.logProbability g p.sites x t = .ok lp ∧
          LogSum (p.kernel.scoreSize g x t) lp) ∧
        ∃ lp, p.kernel.logProbability g p.sites t x = .ok lp ∧
          LogSum (p.kernel.scoreSize g x t) lp := by
      rcases hmade with hmade | hmade
      · exact Kernel.logSum_of_encloses hK hdist hplain hg hw hx ht hxt htt hk hinsert hdelete
          (by omega) ((Insertion.leads_encloses hdist hplain hdx).of_ok hmade).2
      · rw [Kernel.scoreSize_comm] at hsize ⊢
        exact (Kernel.logSum_of_encloses hK hdist hplain hg hw ht hx htt hxt hk hinsert hdelete
          (by omega) ((Deletion.leads_encloses hdist hplain hdx).of_ok hmade).2).symm
    obtain ⟨⟨l, hl, hlsum⟩, l', hl', hlsum'⟩ := hscores
    exact ⟨l - l', Proposer.forwardBackward_eq hl hl',
      hK.logSum_finite (hlsum.sub hlsum') (by omega)⟩

end Rounded

section Exact

open Exact hiding inf negInf

variable {g : Grammar Exact} {w : SiteWeights Exact} {s : NameSupply} {t : Tree Exact}

theorem Grammar.PositiveWeights.isWeighted (h : g.PositiveWeights) : g.IsWeighted :=
  ⟨fun r hr => isWeight_iff.mpr (h.rules r hr),
    fun r hr spec hspec => isWeight_iff.mpr (h.uses r hr spec hspec)⟩

theorem SiteWeights.Positive.isWeighted (h : w.Positive) : w.IsWeighted := by
  cases w with
  | uniform => trivial
  | leaves weight => exact isWeight_iff.mpr h

theorem Grammar.Generable.finiteTotals (h : g.Generable s [] t) (hplain : g.PlainNames)
    (hpos : g.PositiveWeights) (hw : w.Nonneg) : g.FiniteTotals w t := by
  refine ⟨fun p n hn => ?_, ?_⟩
  · have hweights := ((h.derivable hplain).weighted_at hpos hn).positive
    exact isFinite_iff.mpr ⟨_, visibleWeight_eq_real hpos hweights⟩
  · exact isFinite_iff.mpr ⟨_, siteTotal_eq fun _ n _ => hw.weight n⟩

theorem Grammar.mem_promotableSlots_pairTerm :
    0 ∈ Deletion.promotableSlots (pairTerm : Tree Exact) :=
  Deletion.mem_promotableSlots.mpr ⟨constantTerm, rfl, rfl, nofun⟩

theorem Grammar.encloses_pairTerm : (constantTerm : Tree Exact).Encloses pairTerm [] 0 :=
  ⟨.here, ⟨pairTerm, get?_nil pairTerm, mem_promotableSlots_pairTerm⟩, by decide⟩

/-- Deletion takes the constant out of the pair, whatever the weight of leaves. -/
theorem Grammar.negInf_lt_logProbability_pairTerm (w : SiteWeights Exact) :
    lt negInf (Deletion.logProbability w pairTerm constantTerm) = true :=
  ((rounded _).negInf_lt_iff (Deletion.scored_logProbability (rounded _) distinctSignatures_terms
    plainNames_terms (generable_pairTerm ⟨0⟩) (generable_constantTerm ⟨0⟩) le_rfl) le_rfl).mpr
      ⟨[], 0, encloses_pairTerm⟩

theorem Grammar.exists_deletion_pairTerm (hw : w.Nonneg) (words : Words) :
    ∃ t s', ((Deletion.propose w pairTerm ⟨0⟩).runExactly words).1 = (.ok t, s') ∧
      (Deletion.propose w pairTerm).Yields ⟨0⟩ (.ok t) s' ∧
        (terms : Grammar Exact).Generable s' [] t := by
  have hpair : (terms : Grammar Exact).Generable ⟨0⟩ [] pairTerm := generable_pairTerm ⟨0⟩
  have hsuccess := Deletion.prob_success hw (get?_nil pairTerm)
    (List.ne_nil_of_mem mem_promotableSlots_pairTerm) ⟨0⟩
  obtain ⟨t, s', hrun⟩ := Sampler.exists_run_eq_ok hsuccess words
  have hmade : (Deletion.propose w pairTerm).Yields ⟨0⟩ (.ok t) s' := by
    have hyields := Rand.yields_runExactly (Deletion.propose w pairTerm ⟨0⟩) words
    rwa [hrun] at hyields
  have hkept : terms.Kept pairTerm t s' :=
    ((Deletion.leads_propose (hpair.derivable plainNames_terms)).of_ok hmade).2
  exact ⟨t, s', hrun, hmade, hkept.derivable.toDerived, hkept.complete hpair.complete⟩

/-- The pair encloses the constant, so insertion may make it of the constant, and whatever deletion
makes of it has a way back. -/
theorem insert_iff_delete_pairTerm :
    let g : Grammar Exact := Grammar.terms
    let x : Tree Exact := Grammar.constantTerm
    let y : Tree Exact := Grammar.pairTerm
    let p : Proposer Exact := ⟨.mixture [(1, .insert), (1, .delete)], .leaves (real 2), 1⟩
    (∀ limit, Rounded Exact limit) ∧ g.DistinctSignatures ∧ g.PlainNames ∧ g.IsWeighted ∧
      p.sites.IsWeighted ∧ g.Generable ⟨0⟩ [] x ∧ g.Generable ⟨0⟩ [] y ∧
      g.FiniteTotals p.sites x ∧ g.FiniteTotals p.sites y ∧ p.kernel.IsWeighted ∧
      Kernel.MayMoveAs .insert p.kernel ∧ Kernel.MayMoveAs .delete p.kernel ∧
      (∃ lp, Insertion.logProbability g p.sites x y = .ok lp ∧ lt negInf lp = true) ∧
      ∀ words, ∃ t s' fb, ((Deletion.propose p.sites y ⟨0⟩).runExactly words).1 = (.ok t, s') ∧
        p.forwardBackward g y t = .ok fb ∧ isFinite fb = true := by
  intro g x y p
  have hdist : g.DistinctSignatures := Grammar.distinctSignatures_terms
  have hplain : g.PlainNames := Grammar.plainNames_terms
  have hpos : g.PositiveWeights := Grammar.positiveWeights_terms
  have hone : IsWeight (1 : Exact) := isWeight_iff.mpr ⟨1, one_pos, rfl⟩
  have hsites : p.sites.Positive := ⟨2, two_pos, rfl⟩
  have hx : g.Generable ⟨0⟩ [] x := Grammar.generable_constantTerm ⟨0⟩
  have hy : g.Generable ⟨0⟩ [] y := Grammar.generable_pairTerm ⟨0⟩
  have hxt : g.FiniteTotals p.sites x := hx.finiteTotals hplain hpos hsites.nonneg
  have hyt : g.FiniteTotals p.sites y := hy.finiteTotals hplain hpos hsites.nonneg
  have hk : p.kernel.IsWeighted := by
    refine .mixture (fun c hc => ?_) (isFinite_iff.mpr ⟨_, sum_eq_real fun c hc => ?_⟩) ?_
    · obtain rfl | rfl := List.mem_pair.mp hc
      all_goals exact ⟨Exact.le_of_lt hone.1, hone.2⟩
    · obtain rfl : c = 1 := by simpa using hc
      exact ⟨1, zero_le_one, rfl⟩
    · simp [Kernel.IsWeighted.insert, Kernel.IsWeighted.delete]
  have hinsert : Kernel.MayMoveAs .insert p.kernel := .mixture List.mem_cons_self hone.1 .self
  have hdelete : Kernel.MayMoveAs .delete p.kernel :=
    .mixture (List.mem_cons_of_mem _ List.mem_cons_self) hone.1 .self
  obtain ⟨hscores, -⟩ := insert_iff_delete (rounded (g.moveSize x y)) hdist hplain hpos.isWeighted
    hsites.isWeighted hx hxt
  obtain ⟨lp, hlp, hiff⟩ := hscores ⟨0⟩ y hy hyt le_rfl
  refine ⟨rounded, hdist, hplain, hpos.isWeighted, hsites.isWeighted, hx, hy, hxt, hyt, hk, hinsert,
    hdelete, ⟨lp, hlp, hiff.mpr (Grammar.negInf_lt_logProbability_pairTerm p.sites)⟩,
    fun words => ?_⟩
  obtain ⟨t, s', hrun, hmade, ht⟩ := Grammar.exists_deletion_pairTerm hsites.nonneg words
  obtain ⟨-, hratio⟩ := insert_iff_delete (rounded (2 * p.kernel.scoreSize g y t)) hdist hplain
    hpos.isWeighted hsites.isWeighted hy hyt
  obtain ⟨fb, hfb, hfinite⟩ := hratio p rfl hk hinsert hdelete t s' (.inr hmade)
    (ht.finiteTotals hplain hpos hsites.nonneg) le_rfl
  exact ⟨t, s', fb, hrun, hfb, hfinite⟩

/-- The total weight has to be finite. With an infinite weight the only node of the constant has no
score as a site, so insertion is not scored to the pair, from which deletion leads back. -/
theorem insert_unlike_delete_infiniteLeaves :
    let g : Grammar Exact := Grammar.terms
    let x : Tree Exact := Grammar.constantTerm
    let y : Tree Exact := Grammar.pairTerm
    let w : SiteWeights Exact := .leaves inf
    g.DistinctSignatures ∧ g.PlainNames ∧ g.PositiveWeights ∧ lt 0 (inf : Exact) = true ∧
      g.Generable ⟨0⟩ [] x ∧ g.Generable ⟨0⟩ [] y ∧
      Insertion.logProbability g w x y = .ok negInf ∧
      lt negInf (Deletion.logProbability w y x) = true := by
  intro g x y w
  have hdist : g.DistinctSignatures := Grammar.distinctSignatures_terms
  have hplain : g.PlainNames := Grammar.plainNames_terms
  have hpos : g.PositiveWeights := Grammar.positiveWeights_terms
  have hx : g.Generable ⟨0⟩ [] x := Grammar.generable_constantTerm ⟨0⟩
  have hy : g.Generable ⟨0⟩ [] y := Grammar.generable_pairTerm ⟨0⟩
  have hencloses : x.Encloses y [] 0 := Grammar.encloses_pairTerm
  refine ⟨hdist, hplain, hpos, rfl, hx, hy, ?_, Grammar.negInf_lt_logProbability_pairTerm w⟩
  have hdx := hx.derivable hplain
  have hdy := hy.derivable hplain
  have hyt : g.FiniteTotals .uniform y := hy.finiteTotals hplain hpos trivial
  obtain ⟨r, slotLps, hrule, hslots, -⟩ := Insertion.exists_slotScore (rounded (g.moveSize x y))
    hdist hplain hpos.isWeighted hx hy hyt le_rfl hencloses.agree (get?_nil x) (get?_nil y) rfl
  have hsite : Insertion.siteWeight g w x [] x = inf :=
    if_neg (by simpa using Insertion.replicatingRules_ne_nil hdist hplain hdx hdy hencloses)
  have htotal : x.siteTotal (Insertion.siteWeight g w x) = inf := by
    change sum [Insertion.siteWeight g w x [] x] = inf
    rw [hsite]
    rfl
  have hnan : x.siteLogProbabilityOf inf (Insertion.siteWeight g w x) [] = Exact.nan := by
    rw [siteLogProbabilityOf, get?_nil]
    dsimp only
    rw [hsite]
    rfl
  have hsites : Insertion.siteLogProbabilities g w (x.siteTotal (Insertion.siteWeight g w x)) x y
      [[]] = .ok [Exact.nan] := by
    rw [htotal, Insertion.siteLogProbabilities_cons (get?_nil x) (get?_nil y) rfl hrule hslots rfl,
      hnan, nan_sub, nan_add]
    rfl
  exact Insertion.logProbability_of_some (p := []) (by decide) hsites

end Exact

end ScopedGrammar
