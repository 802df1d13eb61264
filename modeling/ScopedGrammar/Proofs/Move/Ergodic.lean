import ScopedGrammar.Proofs.Move.Accuracy

/-!
# Ergodic kernels

A kernel that calls itself ergodic gives every move between trees for the same nonterminal a finite
score. Regeneration at the root makes any such move, and is among the sites whatever else is. No
score is an error or undefined: that of each component is the logarithm of a number that is not
negative, so no component can spoil the sum, and one that is positive makes it positive. A mixture
may weigh nothing at all. Then it has no score to add up, and is never drawn.
-/
namespace ScopedGrammar

open Exact ScopedGrammar.Tree

variable {g : Grammar Exact} {w : SiteWeights Exact} {s names : NameSupply} {x y : Tree Exact}

namespace Regeneration

/-- The mass of what the second tree has at a place, if that is for the same nonterminal as what the
first one has there. -/
noncomputable def massAt (g : Grammar Exact) (x y : Tree Exact) (p : Place) : ℝ :=
  match x.get? p, y.get? p with
  | some m, some n => if m.nonterminal = n.nonterminal then g.treeMass (y.variablesAbove p) n else 0
  | _, _ => 0

theorem massAt_eq {m n : Tree Exact} {p : Place} (hm : x.get? p = some m) (hn : y.get? p = some n)
    (hnt : m.nonterminal = n.nonterminal) : massAt g x y p = g.treeMass (y.variablesAbove p) n := by
  rw [massAt, hm, hn]
  exact if_pos hnt

theorem massAt_eq_zero {m : Tree Exact} {p : Place} (hm : x.get? p = some m)
    (hne : ∀ n, y.get? p = some n → m.nonterminal ≠ n.nonterminal) : massAt g x y p = 0 := by
  rw [massAt, hm]
  split
  · next m' n heq hn =>
    obtain rfl : m = m' := Option.some.inj heq
    exact if_neg (hne n hn)
  · rfl

theorem massAt_pos (hg : g.Proper) (hy : g.Derivable names y) {m n : Tree Exact} {p : Place}
    (hm : x.get? p = some m) (hn : y.get? p = some n) (hnt : m.nonterminal = n.nonterminal) :
    0 < massAt g x y p ∧ g.logProbabilityAt y p = .ok (logOf (massAt g x y p)) := by
  obtain ⟨hmass, hscore⟩ := (hy.weighted_at hg.positive hn).logProbabilityIn_eq hg
  rw [massAt_eq hm hn hnt, logOf_pos hmass, Grammar.logProbabilityAt, Grammar.subtreeAt, hn]
  exact ⟨hmass, hscore⟩

theorem massAt_nonneg (hg : g.Proper) (hy : g.Derivable names y) (p : Place) :
    0 ≤ massAt g x y p := by
  unfold massAt
  split
  · next m n hm hn =>
    split_ifs with hnt
    · exact (massAt_eq (g := g) hm hn hnt) ▸ (massAt_pos hg hy hm hn hnt).1.le
    · exact le_rfl
  · exact le_rfl

/-- Regeneration gives a finite score to every move between trees for the same nonterminal. -/
theorem exists_real_logProbability (hg : g.Proper) (hplain : g.PlainNames) (hw : w.Positive)
    (hx : g.Derivable s x) (hy : g.Derivable names y) (hroot : x.nonterminal = y.nonterminal) :
    ∃ l, logProbability g w x y = .ok (real l) := by
  have hweight : ∀ p n, x.get? p = some n → (w.weight n).Nonneg := fun _ n _ => hw.nonneg.weight n
  obtain ⟨-, hsites⟩ := editSites_spec hg.distinct hplain hx hy
  have hscores : ∀ p ∈ x.editSites y, ∀ m n, x.get? p = some m → y.get? p = some n →
      m.nonterminal = n.nonterminal →
        ∃ lp, g.logProbabilityAt y p = .ok lp ∧ Rates True lp (massAt g x y p) := by
    intro p _ m n hm hn hnt
    obtain ⟨hpos, hscore⟩ := massAt_pos hg hy hm hn hnt
    exact ⟨_, hscore, rates_logOf hpos.le⟩
  obtain ⟨lps, hlps, hrated⟩ := ratedSites_siteLogProbabilities hw.nonneg
    (fun p hp => ((hsites p).mp hp).1) hscores fun p _ m hm hne => massAt_eq_zero hm hne
  -- a new tree at the root accounts for any difference
  have hmem : [] ∈ x.editSites y := (hsites []).mpr ⟨by simp, by
    unfold mayAccount
    split <;> rfl⟩
  have hxroot := get?_nil x
  have hsum : 0 < ((x.editSites y).map fun p =>
      x.siteShare (fun _ n => w.weight n) p * massAt g x y p).sum := by
    refine (sum_map_pos_iff fun p _ => ?_).mpr ⟨[], hmem, ?_⟩
    · exact mul_nonneg (siteShare_nonneg hweight p) (massAt_nonneg hg hy p)
    · exact mul_pos (hw.siteShare_pos hxroot) (massAt_pos hg hy hxroot (get?_nil y) hroot).1
  obtain ⟨l, hl⟩ := (hrated.logSumExp hweight).ne_negInf hsum
  exact ⟨l, by rw [logProbability, hlps, ← hl]; rfl⟩

end Regeneration

namespace Kernel

/-- Wherever kernels are mixed, no weight is negative. -/
inductive NonnegWeighted : Kernel Exact → Prop
  | regeneration : NonnegWeighted .regeneration
  | insert : NonnegWeighted .insert
  | delete : NonnegWeighted .delete
  | copy : NonnegWeighted .copy
  | mixture {components : List (Exact × Kernel Exact)} (nonneg : ∀ c ∈ components, c.1.Nonneg)
      (each : ∀ c ∈ components, c.2.NonnegWeighted) : NonnegWeighted (.mixture components)

section Syntax

variable {K : Type} [Scalar K] {components : List (K × Kernel K)}

theorem anyErgodic_iff : anyErgodic components = true ↔
    ∃ c ∈ components, Scalar.lt 0 c.1 = true ∧ c.2.isErgodic = true := by
  induction components with
  | nil => simp [anyErgodic]
  | cons c components ih => simp [anyErgodic, ih]

theorem componentLogProbabilities_eq_nil {g : Grammar K} {w : SiteWeights K} {x y : Tree K} {total : K}
    (h : ∀ c ∈ components, Scalar.lt 0 c.1 = false) :
    componentLogProbabilities g w x y total components = .ok [] := by
  induction components with
  | nil => rfl
  | cons c components ih =>
    obtain ⟨hc, hrest⟩ := List.forall_mem_cons.mp h
    rw [componentLogProbabilities, if_neg (Bool.eq_false_iff.mp hc), ih hrest]

end Syntax

variable {k : Kernel Exact} {components : List (Exact × Kernel Exact)}

/-- If the scores of the components are logarithms of numbers that are not negative, the score of
the mixture is the logarithm of their average. Without any weight it is that of the impossible. -/
theorem logProbability_mixture {q : Exact × Kernel Exact → ℝ}
    (hnonneg : ∀ c ∈ components, c.1.Nonneg) (hq : ∀ c ∈ components, 0 ≤ q c)
    (hlp : ∀ c ∈ components, c.2.logProbability g w x y = .ok (logOf (q c))) :
    (mixture components).logProbability g w x y = .ok (logOf (components.map fun c =>
      c.1.toReal / (components.map fun c => c.1.toReal).sum * q c).sum) := by
  have hweight : ∀ c ∈ components, 0 ≤ c.1.toReal := fun c hc => (hnonneg c hc).toReal_nonneg
  rw [logProbability, sum_weights hnonneg]
  by_cases hpos : 0 < (components.map fun c => c.1.toReal).sum
  · obtain ⟨lps, hlps, hrates⟩ := ratesSum_componentLogProbabilities hpos hnonneg
      fun c hc => ⟨_, hlp c hc, (rates_logOf (hq c hc) : Rates True _ _)⟩
    rw [hlps, ← hrates.logSumExp.eq_logOf trivial]
    rfl
  · have hnone : ∀ c ∈ components, ¬ 0 < c.1.toReal := fun c hc hc' =>
      hpos ((sum_map_pos_iff hweight).mpr ⟨c, hc, hc'⟩)
    have hlt : ∀ c ∈ components, Scalar.lt 0 c.1 = false := fun c hc =>
      Bool.eq_false_iff.mpr ((hnonneg c hc).zero_lt_iff.not.mpr (hnone c hc))
    rw [componentLogProbabilities_eq_nil hlt, sum_map_eq_zero fun c hc => ?_]
    · exact congrArg Except.ok (logSumExp_logOf (by simp : ∀ p ∈ ([] : List ℝ), 0 ≤ p))
    · rw [le_antisymm (not_lt.mp (hnone c hc)) (hweight c hc), zero_div, zero_mul]

/-- The score of a kernel is the logarithm of a number that is not negative. Where a kernel that
calls itself ergodic moves between trees for the same nonterminal, the number is positive. -/
theorem exists_logProbability_eq_logOf (hk : k.NonnegWeighted) (hg : g.Proper)
    (hplain : g.PlainNames) (hw : w.Positive) (hx : g.Derivable s x) (hy : g.Derivable names y) :
    ∃ q, 0 ≤ q ∧ k.logProbability g w x y = .ok (logOf q) ∧
      (k.isErgodic = true → x.nonterminal = y.nonterminal → 0 < q) := by
  induction hk with
  | regeneration =>
    obtain ⟨_, hlp, q, hq, rfl, -, -⟩ := Regeneration.rates_propose hg hplain hw.nonneg hx hy
    refine ⟨q, hq, hlp, fun _ hroot => ?_⟩
    obtain ⟨l, hl⟩ := Regeneration.exists_real_logProbability hg hplain hw hx hy hroot
    by_contra hnot
    rw [hlp, logOf_eq_negInf_iff.mpr (not_lt.mp hnot)] at hl
    cases hl
  | insert =>
    obtain ⟨_, hlp, q, hq, rfl, -, -⟩ := Insertion.rates_propose hg hplain hw.nonneg hx hy
    exact ⟨q, hq, hlp, fun h => by cases h⟩
  | delete =>
    obtain ⟨q, hq, hlp, -, -⟩ := Deletion.rates_propose hg.distinct hplain hw.nonneg hx hy
    exact ⟨q, hq, congrArg Except.ok hlp, fun h => by cases h⟩
  | copy =>
    obtain ⟨q, hq, hlp, -, -⟩ :=
      Copying.rates_propose hg.distinct hplain hw.nonneg hx hy (Nat.le_refl _)
    exact ⟨q, hq, congrArg Except.ok hlp, fun h => by cases h⟩
  | @mixture components hnonneg _ ih =>
    choose! q hq hlp hpos using ih
    have hweight : ∀ c ∈ components, 0 ≤ c.1.toReal := fun c hc => (hnonneg c hc).toReal_nonneg
    have htotal : 0 ≤ (components.map fun c => c.1.toReal).sum :=
      List.sum_nonneg (List.forall_mem_map.mpr hweight)
    have hterm : ∀ c ∈ components,
        0 ≤ c.1.toReal / (components.map fun c => c.1.toReal).sum * q c :=
      fun c hc => mul_nonneg (div_nonneg (hweight c hc) htotal) (hq c hc)
    refine ⟨_, List.sum_nonneg (List.forall_mem_map.mpr hterm),
      logProbability_mixture hnonneg hq hlp, fun hergodic hroot => (sum_map_pos_iff hterm).mpr ?_⟩
    obtain ⟨c, hc, hlt, hkernel⟩ := anyErgodic_iff.mp hergodic
    have hc' := (hnonneg c hc).zero_lt_iff.mp hlt
    have hpos' := (sum_map_pos_iff hweight).mpr ⟨c, hc, hc'⟩
    exact ⟨c, hc, mul_pos (div_pos hc' hpos') (hpos c hc hkernel hroot)⟩

/-- A kernel that calls itself ergodic has a finite score for every move between trees for the same
nonterminal, however kernels are mixed in it and whatever else they do. -/
theorem exists_real_of_isErgodic (hdist : g.DistinctSignatures) (hplain : g.PlainNames)
    (hpos : g.PositiveWeights) (hw : w.Positive) (hk : k.NonnegWeighted)
    (hergodic : k.isErgodic = true) (hx : g.Derivable s x) (hy : g.Derivable names y)
    (hroot : x.nonterminal = y.nonterminal) : ∃ l, k.logProbability g w x y = .ok (real l) := by
  have hg : g.Proper := ⟨hdist, hplain.noReservedNames, hpos⟩
  obtain ⟨q, -, hlp, hq⟩ := exists_logProbability_eq_logOf hk hg hplain hw hx hy
  exact ⟨Real.log q, by rw [hlp, logOf_pos (hq hergodic hroot)]⟩

/-- Regeneration in an inner mixture reaches the function that returns its argument from the
constant. Beside it another mixture weighs nothing. -/
theorem exists_real_of_isErgodic_identityTerm :
    let g : Grammar Exact := Grammar.terms
    let w : SiteWeights Exact := .leaves 1
    let k : Kernel Exact := .mixture
      [(0, .insert), (1, .mixture [(1, .copy), (1, .regeneration)]), (1, .mixture [(0, .delete)])]
    let x : Tree Exact := Grammar.constantTerm
    let y : Tree Exact := Grammar.identityTerm
    g.DistinctSignatures ∧ g.PlainNames ∧ g.PositiveWeights ∧ w.Positive ∧ k.NonnegWeighted ∧
      k.isErgodic = true ∧ g.Derivable ⟨1⟩ x ∧ g.Derivable ⟨1⟩ y ∧ x.nonterminal = y.nonterminal ∧
      ∃ l, k.logProbability g w x y = .ok (real l) := by
  intro g w k x y
  have hzero : (0 : Exact).Nonneg := ⟨0, le_rfl, zero_eq⟩
  have hone : (1 : Exact).Positive := ⟨1, one_pos, one_eq⟩
  have hw : w.Positive := hone
  have hk : k.NonnegWeighted := by
    refine .mixture (by simp [hzero, hone.nonneg]) ?_
    simp only [List.forall_mem_cons, List.not_mem_nil, false_imp_iff, implies_true, and_true]
    exact ⟨.insert, .mixture (by simp [hone.nonneg]) (by simp [NonnegWeighted.copy,
      NonnegWeighted.regeneration]), .mixture (by simp [hzero]) (by simp [NonnegWeighted.delete])⟩
  have hergodic : k.isErgodic = true := by simp [k, isErgodic, anyErgodic, zero_eq, one_eq]
  have hx : g.Derivable ⟨1⟩ x :=
    (Grammar.generable_constantTerm ⟨1⟩).derivable Grammar.plainNames_terms
  exact ⟨Grammar.distinctSignatures_terms, Grammar.plainNames_terms, Grammar.positiveWeights_terms,
    hw, hk, hergodic, hx, Grammar.derivable_identityTerm, rfl,
    exists_real_of_isErgodic Grammar.distinctSignatures_terms Grammar.plainNames_terms
      Grammar.positiveWeights_terms hw hk hergodic hx Grammar.derivable_identityTerm rfl⟩

end Kernel

end ScopedGrammar
