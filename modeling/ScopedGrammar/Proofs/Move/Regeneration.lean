import ScopedGrammar.Move.Regeneration
import ScopedGrammar.Proofs.Move.Rating

/-!
# Regeneration

The score of regeneration rates the probability that it turns one tree into a variant of another:
at each place that may account for the differences, the probability of drawing the place times that
of generating the subtree of the second tree there.
-/
namespace ScopedGrammar.Regeneration

open Exact ScopedGrammar.Tree

section Scores

variable {K : Type} [Scalar K] {g : Grammar K} {names : NameSupply} {y : Tree K}

/-- At a place of a derived tree there is a score for what is generated there. -/
theorem exists_logProbabilityAt (hdist : g.DistinctSignatures) (hres : g.NoReservedNames)
    (hy : g.Derived names [] y) {p : Place} {n : Tree K} (hn : y.get? p = some n) :
    ∃ lp, g.logProbabilityAt y p = .ok lp := by
  rw [Grammar.logProbabilityAt, Grammar.subtreeAt, hn]
  exact (hy.at_place hn).exists_logProbabilityIn hdist hres

/-- Regeneration of a derived tree always has a score. -/
theorem exists_logProbability (hdist : g.DistinctSignatures) (hres : g.NoReservedNames)
    (hy : g.Derived names [] y) (w : SiteWeights K) (x : Tree K) :
    ∃ lp, logProbability g w x y = .ok lp := by
  have hsites : ∀ places : List Place,
      ∃ lps, siteLogProbabilities g w (x.siteTotal fun _ n => w.weight n) x y places = .ok lps := by
    intro places
    induction places with
    | nil => exact ⟨[], rfl⟩
    | cons p places ih =>
      obtain ⟨lps, hlps⟩ := ih
      rw [siteLogProbabilities]
      cases hn : y.get? p with
      | none => exact ⟨lps, by simpa using hlps⟩
      | some n =>
        obtain ⟨lp, hlp⟩ := exists_logProbabilityAt hdist hres hy hn
        rw [hlps, hlp]
        split_ifs
        · exact ⟨lps, rfl⟩
        · exact ⟨_, rfl⟩
  obtain ⟨lps, hlps⟩ := hsites (x.editSites y)
  exact ⟨Scalar.logSumExp lps, by rw [logProbability, hlps]; rfl⟩

end Scores

variable {g : Grammar Exact} {w : SiteWeights Exact} {s names : NameSupply}
  {x y m n : Tree Exact} {p : Place}

/-- The probability that regenerating the subtree at a place comes to a variant of a tree. -/
noncomputable def probAt (g : Grammar Exact) (s : NameSupply) (x y : Tree Exact) (p : Place) : ℝ :=
  match x.get? p with
  | some m => (g.generateIn (.above x p) m.nonterminal).prob s fun r => AgreeOff Eq x y p ∧
      ∃ n, y.get? p = some n ∧ r.VariantOver (Matching.along Eq x y p) n
  | none => 0

theorem probAt_eq_zero (h : ¬ AgreeOff Eq x y p) : probAt g s x y p = 0 := by
  unfold probAt
  split
  · exact Sampler.prob_eq_zero fun r s' _ hr => h hr.1
  · rfl

theorem probAt_eq_zero_of_ne (hm : x.get? p = some m)
    (hne : ∀ n, y.get? p = some n → m.nonterminal ≠ n.nonterminal) : probAt g s x y p = 0 := by
  rw [probAt, hm]
  refine Sampler.prob_eq_zero fun r s' hr ⟨_, n, hn, hvar⟩ => hne n hn ?_
  obtain ⟨rules, hexp⟩ := Grammar.of_yields_generateIn hr
  exact hexp.nonterminal_eq.symm.trans hvar.nonterminal_eq

/-- The score of the subtree at a place rates the probability of generating it there. -/
theorem rates_probAt (hg : g.Proper) (hx : g.Derivable s x) (hy : g.Derivable names y)
    (hm : x.get? p = some m) (hn : y.get? p = some n) (hnt : m.nonterminal = n.nonterminal) :
    ∃ lp, g.logProbabilityAt y p = .ok lp ∧
      Rates (g.Reaches x y ∧ AgreeOff Eq x y p) lp (probAt g s x y p) := by
  have hny := hy.weighted_at hg.positive hn
  have hmx := hx.derived_at hm
  have hscore : g.logProbabilityAt y p = g.logProbabilityIn (y.variablesAbove p) n := by
    rw [Grammar.logProbabilityAt, Grammar.subtreeAt, hn]
    rfl
  rw [hscore]
  by_cases hagree : AgreeOff Eq x y p
  · have hal := hagree.aligned hx hy
    have hprob : probAt g s x y p = (g.generateIn (.above x p) n.nonterminal).prob s
        fun r => r.VariantOver (Matching.along Eq x y p) n := by
      rw [probAt, hm, ← hnt]
      refine Sampler.prob_congr fun r s' _ => ?_
      simp [hagree, hn]
    obtain ⟨lp, hlp, hrates⟩ := Grammar.rates_generateIn hg hmx.wellNamed hal hny
    refine ⟨lp, hlp, hprob ▸ hrates.of_le le_rfl fun h => ⟨⟨?_, ?_⟩, rfl⟩⟩
    · exact h.1.2.1.at_place hn
    · exact (depth_le_of_get? hn).trans h.1.2.2
  · obtain ⟨hmass, hlp⟩ := hny.logProbabilityIn_eq hg
    rw [probAt_eq_zero hagree]
    exact ⟨_, hlp, _, hmass.le, (logOf_pos hmass).symm, hmass.le, fun h => absurd h.2 hagree⟩

theorem prob_propose (hw : w.Nonneg) (s : NameSupply) (x y : Tree Exact) :
    (propose g w x).prob s (fun t => t.Variant y) =
      (x.places.map fun p => x.siteShare (fun _ n => w.weight n) p * probAt g s x y p).sum := by
  refine prob_drawSite (fun p n _ => hw.weight n) ?_ fun p m l hm _ => ?_
  · exact Sampler.prob_throw ..
  · have hprob := prob_replace (y := y) (s := s) (.grammar (.invalidPlace p)) hm
      (c := g.generateIn (.above x p) m.nonterminal) (f := id) fun r s' hr => by
        obtain ⟨rules, hexp⟩ := Grammar.of_yields_generateIn hr
        exact hexp.nonterminal_eq
    rw [probAt, hm]
    exact hprob

/-- Place by place the scores rate what is added there. -/
theorem ratedSites_siteLogProbabilities {exact : Prop} {v : Place → ℝ} (hw : w.Nonneg)
    {places : List Place} (hsome : ∀ p ∈ places, (x.get? p).isSome)
    (hsame : ∀ p ∈ places, ∀ m n, x.get? p = some m → y.get? p = some n →
      m.nonterminal = n.nonterminal → ∃ lp, g.logProbabilityAt y p = .ok lp ∧ Rates exact lp (v p))
    (hother : ∀ p ∈ places, ∀ m, x.get? p = some m →
      (∀ n, y.get? p = some n → m.nonterminal ≠ n.nonterminal) → v p = 0) :
    let weight := fun (_ : Place) (n : Tree Exact) => w.weight n
    ∃ lps, siteLogProbabilities g w (x.siteTotal weight) x y places = .ok lps ∧
      RatedSites weight exact x v places lps := by
  intro weight
  have hweight : ∀ q k, x.get? q = some k → (weight q k).Nonneg := fun _ k _ => hw.weight k
  induction places with
  | nil => exact ⟨[], rfl, .nil⟩
  | cons p places ih =>
    obtain ⟨lps, hlps, hrated⟩ := ih (fun q hq => hsome q (List.mem_cons_of_mem p hq))
      (fun q hq => hsame q (List.mem_cons_of_mem p hq))
      fun q hq => hother q (List.mem_cons_of_mem p hq)
    obtain ⟨m, hm⟩ := Option.isSome_iff_exists.mp (hsome p List.mem_cons_self)
    by_cases htypes : ∃ n, y.get? p = some n ∧ m.nonterminal = n.nonterminal
    · obtain ⟨n, hn, hnt⟩ := htypes
      obtain ⟨lp, hlp, hrates⟩ := hsame p List.mem_cons_self m n hm hn hnt
      have htype : (m.nonterminal == n.nonterminal) = true := by simp [hnt]
      have hstep : siteLogProbabilities g w (x.siteTotal weight) x y (p :: places) =
          if x.siteLogProbabilityOf (x.siteTotal weight) weight p == negInf then .ok lps
          else .ok ((x.siteLogProbabilityOf (x.siteTotal weight) weight p + lp) :: lps) := by
        rw [siteLogProbabilities, hm, hn, hlps, hlp]
        simp only [htype, Bool.not_true, Bool.false_or]
        rfl
      rw [hstep]
      by_cases hnever : x.siteLogProbabilityOf (x.siteTotal weight) weight p = negInf
      · refine ⟨lps, if_pos (by rw [hnever]; rfl), hrated.skip ?_⟩
        rw [siteShare_eq_zero_of_negInf hweight hm hnever, zero_mul]
      · refine ⟨_, if_neg (by rwa [beq_negInf]), hrated.cons (fun hpos => ?_) fun hzero => ?_⟩
        · rw [siteLogProbabilityOf_eq hweight hpos hm]
          exact hrates.after (siteShare_nonneg hweight p)
        · rw [siteLogProbabilityOf_eq_nan hweight hzero hm, nan_add]
    · refine ⟨lps, ?_, hrated.skip ?_⟩
      · rw [siteLogProbabilities, hm, hlps]
        cases hn : y.get? p with
        | none => rfl
        | some n =>
          have hnt : (m.nonterminal == n.nonterminal) = false := by
            simpa using fun hnt => htypes ⟨n, hn, hnt⟩
          simp [hnt]
      · have hne := hother p List.mem_cons_self m hm fun n hn hnt => htypes ⟨n, hn, hnt⟩
        rw [hne, mul_zero]

/-- The score of regeneration rates its probability. -/
theorem rates_propose (hg : g.Proper) (hplain : g.PlainNames) (hw : w.Nonneg)
    (hx : g.Derivable s x) (hy : g.Derivable names y) :
    ∃ lp, logProbability g w x y = .ok lp ∧
      Rates (g.Reaches x y) lp ((propose g w x).prob s fun t => t.Variant y) := by
  have hsites := of_mem_editSites hg.distinct hplain hx hy
  obtain ⟨lps, hlps, hrated⟩ := ratedSites_siteLogProbabilities hw (fun p hp => (hsites p hp).1)
    (fun p hp m n hm hn hnt => by
      obtain ⟨lp, hlp, hrates⟩ := rates_probAt hg hx hy hm hn hnt
      exact ⟨lp, hlp, hrates.of_le le_rfl fun h => ⟨⟨h, (hsites p hp).2 h.complete⟩, rfl⟩⟩)
    fun p _ m hm hne => probAt_eq_zero_of_ne hm hne
  refine ⟨Scalar.logSumExp lps, ?_, ?_⟩
  · rw [logProbability, hlps]
    rfl
  · rw [prob_propose hw, sum_editSites hg.distinct hplain hx hy fun p => probAt_eq_zero]
    exact hrated.logSumExp fun _ k _ => hw.weight k

end ScopedGrammar.Regeneration
