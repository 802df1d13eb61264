import ScopedGrammar.Proofs.Move.Possible
import ScopedGrammar.Proofs.Move.Proposal
import ScopedGrammar.Proofs.Move.Support

/-!
# Moves beyond the limit of the depth

Generation keeps to the limit of the depth, and scoring does not. So a move is possible exactly if
what it has to generate is within the limit, and its score is finite exactly if it would be possible
under some other limit. The two come to the same where the second tree is within the limit. Beyond
it the score may promise a move that never happens.
-/
namespace ScopedGrammar

open Exact ScopedGrammar.Tree

variable {g : Grammar Exact} {w : SiteWeights Exact} {s names : NameSupply}
  {x y m n : Tree Exact} {p : Place} {limit limit' : ℕ}

namespace Kernel

variable {k : Kernel Exact}

/-- How a kernel may turn a tree into another one, if what it generates for that keeps to a limit of
the depth. Deletion and copying generate nothing. -/
inductive Turns (limit : ℕ) (x y : Tree Exact) : Kernel Exact → Prop
  | regeneration {p : Place} {m n : Tree Exact} (agree : AgreeOff Eq x y p)
      (source : x.get? p = some m) (target : y.get? p = some n)
      (nonterminal : m.nonterminal = n.nonterminal) (within : n.depth ≤ limit) :
      Turns limit x y .regeneration
  | insert {p : Place} {slot : ℕ} {n : Tree Exact} (encloses : x.Encloses y p slot)
      (target : y.get? p = some n) (within : Insertion.BesideWithin limit n slot) :
      Turns limit x y .insert
  | delete {p : Place} {slot : ℕ} (encloses : y.Encloses x p slot) : Turns limit x y .delete
  | copy {p q : Place} {m n : Tree Exact} (source : x.get? p = some m) (target : x.get? q = some n)
      (fits : (Copying.spotAt x p m).fits (Copying.spotAt x q n) = true)
      (agree : AgreeOff Eq x y q) (alike : x.alikeAt p y q = true) : Turns limit x y .copy
  | mixture {components : List (Exact × Kernel Exact)} {c : Exact × Kernel Exact}
      (mem : c ∈ components) (positive : c.1.Positive) (component : Turns limit x y c.2) :
      Turns limit x y (.mixture components)

/-- Nothing that a kernel has to generate is deeper than the tree that it is to come to. -/
theorem Turns.of_depth_le (h : k.Turns limit x y) (hdepth : y.depth ≤ limit') :
    k.Turns limit' x y := by
  induction h with
  | regeneration hagree hm hn hnt =>
    exact .regeneration hagree hm hn hnt ((depth_le_of_get? hn).trans hdepth)
  | insert hencloses hn =>
    exact .insert hencloses hn (Insertion.besideWithin_of_depth_le hn hdepth _)
  | delete hencloses => exact .delete hencloses
  | copy hm hn hfits hagree halike => exact .copy hm hn hfits hagree halike
  | mixture hc hpos _ ih => exact .mixture hc hpos ih

/-- A kernel may turn a tree into a variant of another exactly if what it has to generate is within
the limit of the depth. -/
theorem prob_pos_iff_turns (hk : k.WellWeighted) (hg : g.Proper) (hplain : g.PlainNames)
    (hw : w.Positive) (hx : g.Derivable s x) (hy : g.Derivable names y)
    (hcomplete : g.Complete y) :
    0 < ((k.propose g w x).prob s fun t => t.Variant y) ↔ k.Turns g.maxDepth x y := by
  induction hk with
  | regeneration =>
    refine (Regeneration.prob_pos_iff hg hw hx hy hcomplete).trans ⟨?_, ?_⟩
    · rintro ⟨p, hagree, m, n, hm, hn, hnt, hwithin⟩
      exact .regeneration hagree hm hn hnt hwithin
    · intro h
      cases h with
      | regeneration hagree hm hn hnt hwithin => exact ⟨_, hagree, _, _, hm, hn, hnt, hwithin⟩
  | insert =>
    refine (Insertion.prob_pos_iff hg hplain hw hx hy hcomplete).trans ⟨?_, ?_⟩
    · rintro ⟨p, slot, hencloses, hwithin⟩
      obtain ⟨n, hn, -⟩ := hencloses.promotable
      exact .insert hencloses hn (hwithin n hn)
    · intro h
      cases h with
      | insert hencloses hn hwithin =>
        exact ⟨_, _, hencloses, fun n hn' => Option.some.inj (hn.symm.trans hn') ▸ hwithin⟩
  | delete =>
    refine (Deletion.prob_pos_iff hg.distinct hplain hw.nonneg hy hx).trans ⟨?_, ?_⟩
    · rintro ⟨p, slot, hencloses⟩
      exact .delete hencloses
    · intro h
      cases h with
      | delete hencloses => exact ⟨_, _, hencloses⟩
  | copy =>
    refine (Copying.prob_pos_iff hg hplain hw hx hy).trans ⟨?_, ?_⟩
    · rintro ⟨p, q, m, n, hm, hn, hfits, hagree, halike⟩
      exact .copy hm hn hfits hagree halike
    · intro h
      cases h with
      | copy hm hn hfits hagree halike => exact ⟨_, _, _, _, hm, hn, hfits, hagree, halike⟩
  | @mixture components hnonneg htotal _ ih =>
    -- a mixture may do what a component of positive weight may do, and nothing else
    rw [prob_mixture hnonneg htotal, sum_map_pos_iff fun c hc =>
      mul_nonneg (div_nonneg (hnonneg c hc).toReal_nonneg htotal.le) (Sampler.prob_nonneg ..)]
    constructor
    · rintro ⟨c, hc, hpos⟩
      have hprob := (Sampler.prob_nonneg ..).lt_of_ne' (right_ne_zero_of_mul hpos.ne')
      have hshare : c.1.toReal ≠ 0 := fun hzero => by simp [hzero] at hpos
      obtain ⟨r, hr, hreal⟩ := hnonneg c hc
      have hrpos : 0 < r := hr.lt_of_ne' (by simpa [hreal] using hshare)
      exact .mixture hc ⟨r, hrpos, hreal⟩ ((ih c hc).mp hprob)
    · intro h
      cases h with
      | mixture hc hpos hturns =>
        exact ⟨_, hc, mul_pos (div_pos hpos.toReal_pos htotal) ((ih _ hc).mpr hturns)⟩

/-- The score of a kernel is finite exactly if the move would be possible under a limit of the depth
that the second tree keeps to. -/
theorem exists_negInf_lt_iff_turns (hk : k.WellWeighted) (hg : g.Proper) (hplain : g.PlainNames)
    (hw : w.Positive) (hx : g.Generable s [] x) (hy : g.Generable names [] y) :
    ∃ lp, k.logProbability g w x y = .ok lp ∧
      (Scalar.lt negInf lp = true ↔ k.Turns y.depth x y) := by
  have hplain' : (g.upToDepth y.depth).PlainNames := hplain.upToDepth
  refine ⟨_, logProbability_eq_logOf hk hg hplain hw.nonneg hx hy, ?_⟩
  rw [negInf_lt_logOf]
  exact prob_pos_iff_turns hk hg.upToDepth hplain' hw (hx.upToDepth.derivable hplain')
    (hy.upToDepth.derivable hplain') hy.complete.upToDepth

/-- A kernel may come to a tree that is alike exactly if the limit of the depth allows for it. -/
theorem prob_alike_pos_iff_turns (hk : k.WellWeighted) (hg : g.Proper) (hplain : g.PlainNames)
    (hw : w.Positive) (hx : g.Generable s [] x) (hy : g.Generable names [] y) :
    0 < ((k.propose g w x).prob s fun t => t.alike y = true) ↔ k.Turns g.maxDepth x y := by
  have hdx := hx.derivable hplain
  have hdy := hy.derivable hplain
  rw [(keeps_propose hk hg hplain hw.nonneg hdx).prob_alike hg.distinct hplain hdy,
    prob_pos_iff_turns hk hg hplain hw hdx hdy hy.complete]

/-- The score of a kernel is finite exactly if the move would be possible under some limit of the
depth, and the move is possible exactly if it is so under the limit there is. So a finite score
means that the move can happen wherever the second tree is within the limit. -/
theorem finite_iff_turns (hdist : g.DistinctSignatures) (hplain : g.PlainNames)
    (hpos : g.PositiveWeights) (hk : k.WellWeighted) (hw : w.Positive) (hx : g.Generable s [] x)
    (hy : g.Generable names [] y) : ∃ lp, k.logProbability g w x y = .ok lp ∧
      (Scalar.lt negInf lp = true ↔ ∃ limit, k.Turns limit x y) ∧
      (0 < ((k.propose g w x).prob s fun t => t.alike y = true) ↔ k.Turns g.maxDepth x y) ∧
      (y.depth ≤ g.maxDepth → (Scalar.lt negInf lp = true ↔
        0 < ((k.propose g w x).prob s fun t => t.alike y = true))) := by
  have hg : g.Proper := ⟨hdist, hplain.noReservedNames, hpos⟩
  have hpossible := prob_alike_pos_iff_turns hk hg hplain hw hx hy
  obtain ⟨lp, hlp, hfinite⟩ := exists_negInf_lt_iff_turns hk hg hplain hw hx hy
  refine ⟨lp, hlp, ?_, hpossible, fun hdepth => ?_⟩
  · exact hfinite.trans ⟨fun h => ⟨_, h⟩, fun ⟨_, h⟩ => h.of_depth_le le_rfl⟩
  · rw [hfinite, hpossible]
    exact ⟨fun h => h.of_depth_le hdepth, fun h => h.of_depth_le le_rfl⟩

/-- Where pairs may be generated, regeneration makes one of the constant, as its score says. -/
theorem finite_iff_turns_pairTerm :
    let g : Grammar Exact := Grammar.terms
    let x : Tree Exact := Grammar.constantTerm
    let y : Tree Exact := Grammar.pairTerm
    let k : Kernel Exact := .mixture [(1, .regeneration), (1, .mixture [(0, .copy), (1, .delete)])]
    g.DistinctSignatures ∧ g.PlainNames ∧ g.PositiveWeights ∧ k.WellWeighted ∧
      (SiteWeights.leaves 1 : SiteWeights Exact).Positive ∧ g.Generable ⟨0⟩ [] x ∧
      g.Generable ⟨0⟩ [] y ∧ ∃ lp, k.logProbability g (.leaves 1) x y = .ok lp ∧
        Scalar.lt negInf lp = true ∧
        0 < ((k.propose g (.leaves 1) x).prob ⟨0⟩ fun t => t.alike y = true) := by
  intro g x y k
  have hone : (1 : Exact).Positive := ⟨1, one_pos, rfl⟩
  have hk : k.WellWeighted := by
    refine .mixture ?_ ?_ ?_
    · simpa using hone.nonneg
    · simpa using add_pos hone.toReal_pos hone.toReal_pos
    · simp only [List.mem_cons, List.not_mem_nil, or_false, forall_eq_or_imp, forall_eq]
      refine ⟨.regeneration, .mixture ?_ ?_ ?_⟩
      · simpa using ⟨⟨0, le_rfl, zero_eq⟩, hone.nonneg⟩
      · simpa [zero_eq] using hone.toReal_pos
      · simp [WellWeighted.copy, WellWeighted.delete]
  have hx : g.Generable ⟨0⟩ [] x := Grammar.generable_constantTerm ⟨0⟩
  have hy : g.Generable ⟨0⟩ [] y := Grammar.generable_pairTerm ⟨0⟩
  have hturns : k.Turns g.maxDepth x y := .mixture List.mem_cons_self hone
    (.regeneration .here (get?_nil x) (get?_nil y) rfl (by decide))
  obtain ⟨lp, hlp, hfinite, hpossible, -⟩ := finite_iff_turns Grammar.distinctSignatures_terms
    Grammar.plainNames_terms Grammar.positiveWeights_terms hk (w := .leaves 1) hone hx hy
  exact ⟨Grammar.distinctSignatures_terms, Grammar.plainNames_terms, Grammar.positiveWeights_terms,
    hk, hone, hx, hy, lp, hlp, hfinite.mpr ⟨_, hturns⟩, hpossible.mpr hturns⟩

/-- Where only leaves may be generated, regeneration scores a pair that it never makes. -/
theorem finite_of_not_turns_pairTerm :
    let g : Grammar Exact := Grammar.terms.upToDepth 0
    let x : Tree Exact := Grammar.constantTerm
    let y : Tree Exact := Grammar.pairTerm
    let k : Kernel Exact := .regeneration
    g.DistinctSignatures ∧ g.PlainNames ∧ g.PositiveWeights ∧ k.WellWeighted ∧
      (SiteWeights.uniform : SiteWeights Exact).Positive ∧ g.Generable ⟨0⟩ [] x ∧
      g.Generable ⟨0⟩ [] y ∧
      (∃ lp, k.logProbability g .uniform x y = .ok lp ∧ Scalar.lt negInf lp = true) ∧
      ¬ 0 < ((k.propose g .uniform x).prob ⟨0⟩ fun t => t.alike y = true) := by
  intro g x y k
  have hproper : (Grammar.terms : Grammar Exact).Proper := ⟨Grammar.distinctSignatures_terms,
    Grammar.plainNames_terms.noReservedNames, Grammar.positiveWeights_terms⟩
  have hg : g.Proper := hproper.upToDepth
  have hplain : g.PlainNames := Grammar.plainNames_terms.upToDepth
  have hx : g.Generable ⟨0⟩ [] x := (Grammar.generable_constantTerm ⟨0⟩).upToDepth
  have hy : g.Generable ⟨0⟩ [] y := (Grammar.generable_pairTerm ⟨0⟩).upToDepth
  have hw : (SiteWeights.uniform : SiteWeights Exact).Positive := trivial
  obtain ⟨lp, hlp, hfinite⟩ :=
    exists_negInf_lt_iff_turns (k := k) .regeneration hg hplain hw hx hy
  refine ⟨hg.distinct, hplain, hg.positive, .regeneration, hw, hx, hy, ⟨lp, hlp, hfinite.mpr ?_⟩, ?_⟩
  · exact .regeneration .here (get?_nil x) (get?_nil y) rfl le_rfl
  · rw [prob_alike_pos_iff_turns .regeneration hg hplain hw hx hy]
    intro h
    cases h with
    | @regeneration p _ _ _ hm hn _ hwithin =>
      -- the constant is a leaf, so the whole pair would have to be generated
      cases p with
      | nil =>
        obtain rfl : y = _ := Option.some.inj hn
        exact absurd hwithin (by decide)
      | cons i p => simp [x, Grammar.constantTerm, Tree.child?, Tree.args] at hm

end Kernel

namespace Proposer

/-- A regeneration from the root may come to any tree for the same nonterminal that is within the
limit, up to the names of its variables. -/
theorem exists_moved {p : Proposer Exact} (hg : g.Proper) (hkernel : p.kernel = .regeneration)
    (hsites : p.sites.Positive) (hx : g.Derivable s x) (hy : g.Derivable names y)
    (hcomplete : g.Complete y) (hdepth : y.depth ≤ g.maxDepth)
    (hnt : y.nonterminal = x.nonterminal) :
    ∃ t fb s', (p.proposeOnce g x).Yields s (.ok (.moved t fb)) s' ∧ g.Derived s' [] t ∧
      t.Variant y := by
  have hprob := (Regeneration.prob_pos_iff hg hsites hx hy hcomplete).mpr
    ⟨[], .here, _, y, rfl, rfl, hnt.symm, hdepth⟩
  obtain ⟨t, s', ht, hvar⟩ := Sampler.exists_of_prob_pos hprob
  have hdt := ((Regeneration.leads_derived hx.toDerived).of_ok ht).2
  obtain ⟨forward, hforward⟩ := Regeneration.exists_logProbability hg.distinct hg.unreserved hdt
    p.sites x
  obtain ⟨backward, hbackward⟩ := Regeneration.exists_logProbability hg.distinct hg.unreserved
    hx.toDerived p.sites t
  have hmade : (p.proposeTree g x).Yields s (.ok t) s' := by
    rwa [proposeTree, hkernel, Kernel.propose]
  have hfb : p.forwardBackward g x t = .ok (forward - backward) := by
    refine forwardBackward_eq ?_ ?_
    · rw [logProbability, hkernel, Kernel.logProbability, hforward]
    · rw [logProbability, hkernel, Kernel.logProbability, hbackward]
  exact ⟨t, _, s', yields_moved hmade hfb, hdt, hvar⟩

end Proposer

end ScopedGrammar
