import ScopedGrammar.Proofs.Move.SiteScore
import ScopedGrammar.Proofs.Tree.Places

/-!
# Finite scores of moves

The score of a move adds up a few logarithms for the choices that it makes, and two for each node
that it generates. So it is finite if the move is possible at all, however numbers are rounded,
unless a sum of weights overflows or the trees are too large for the arithmetic. Of insertion and
deletion it is said which moves are possible: those between a tree and one that encloses a subtree
of it.
-/
namespace ScopedGrammar

open Scalar ScopedGrammar.Tree

variable {K : Type} [Scalar K] {limit : ℕ} {g : Grammar K} {w : SiteWeights K}
  {s names : NameSupply} {x y m n : Tree K} {p : Place} {places : List Place}

namespace Deletion

/-- Only nodes with arguments can be deleted, so the weight of leaves does not matter. -/
theorem restricts_siteWeight (hK : Rounded K limit) : x.Restricts .uniform (siteWeight w) := by
  obtain ⟨hpos, hfinite⟩ := hK.one_isWeight
  refine ⟨trivial, hK.sum_finite (List.forall_mem_map.mpr fun z _ => ?_), fun p n => ?_⟩
  · exact ⟨hK.le_of_lt hpos, hK.le_refl hfinite⟩
  · by_cases hslots : promotableSlots n = []
    · exact .inr (if_pos (by rw [hslots]; rfl))
    · exact .inl (siteWeight_of_promotable hslots)

theorem scoredSites_siteLogProbabilities (hK : Rounded K limit) (hsize : x.countNodes ≤ limit)
    (hplaces : ∀ p ∈ places, (x.get? p).isSome ∧ AgreeOff Eq x y p) :
    ScoredSites 4 (siteWeight w) x (fun p => ∃ slot, y.Encloses x p slot) places
      (siteLogProbabilities w (x.siteTotal (siteWeight w)) x y places) := by
  have hsites : x.Restricts .uniform (siteWeight w) := restricts_siteWeight hK
  induction places with
  | nil => exact .nil
  | cons p places ih =>
    obtain ⟨⟨hsome, hagree⟩, hrest⟩ := List.forall_mem_cons.mp hplaces
    obtain ⟨m, hm⟩ := Option.isSome_iff_exists.mp hsome
    have hiff : (∃ slot, y.Encloses x p slot) ↔ matchingSlots x y m p ≠ [] := by
      simp only [encloses_iff hm, and_iff_right (agreeOff_comm.mp hagree)]
      exact ⟨fun ⟨_, hslot⟩ => List.ne_nil_of_mem hslot, List.exists_mem_of_ne_nil _⟩
    rw [siteLogProbabilities_cons hm]
    by_cases hnone : matchingSlots x y m p = []
    · rw [if_pos (by rw [hnone]; rfl)]
      exact (ih hrest).skip (hiff.not.mpr (not_not.mpr hnone))
    · rw [if_neg (by simpa using hnone)]
      have hmatch := List.length_pos_iff.mpr hnone
      have hle : (matchingSlots x y m p).length ≤ (promotableSlots m).length :=
        List.length_filter_le _ _
      have hslots : (promotableSlots m).length ≤ limit :=
        (length_promotableSlots_le m).trans ((countNodes_le_of_get? hm).trans hsize)
      have hsite : siteWeight w p m = 1 :=
        siteWeight_of_promotable (List.ne_nil_of_length_pos (hmatch.trans_le hle))
      refine (ih hrest).cons (fun _ => .of_logSum ?_ (hiff.mpr hnone)) fun hzero => ?_
      · refine ((hsites.logSum_site hK hm hsite).add (.log ?_)).sub (.log ?_)
        · exact hK.ofNat_isWeight hmatch (hle.trans hslots)
        · exact hK.ofNat_isWeight (hmatch.trans_le hle) hslots
      · exact absurd (hzero ▸ hsites.siteTotal_isWeight hK hm hsite) hK.not_isWeight_zero

/-- Deletion may be scored from a tree to another exactly if the first one encloses a subtree of
the second. -/
theorem scored_logProbability (hK : Rounded K limit) (hdist : g.DistinctSignatures)
    (hplain : g.PlainNames) (hx : g.Generable s [] x) (hy : g.Generable names [] y)
    (hsize : g.moveSize x y ≤ limit) :
    Scored (g.moveSize x y) (∃ p slot, y.Encloses x p slot) (logProbability w x y) := by
  have hdx := hx.derivable hplain
  have hdy := hy.derivable hplain
  unfold Grammar.moveSize at hsize ⊢
  by_cases hvar : x.Variant y
  · rw [logProbability, (leastCommonDifference_eq_none_iff hdist hplain hdx hdy).mpr hvar]
    refine .negInf ?_
    rintro ⟨_, _, h⟩
    exact h.not_variant hdist hplain hdy hdx hvar.symm
  · obtain ⟨q, hq, -⟩ := exists_leastCommonDifference hdist hplain hdx hdy hvar
    have hsites : x.Restricts .uniform (siteWeight w) := restricts_siteWeight hK
    have hscored := scoredSites_siteLogProbabilities (y := y) (w := w) hK (by omega)
      fun p hp => (of_mem_editSites hdist hplain hdx hdy p hp).imp_right
        fun h => h ⟨hx.complete, hy.complete⟩
    have hedit := (hscored.logSumExp hK (by omega) hsites fun p hp => ?_).congr
      (exists_editSites_iff hdist hplain hdx hdy fun p hp =>
        hp.elim fun _ h => agreeOff_comm.mp h.agree)
    · rw [logProbability, hq]
      rw [editSites, hq] at hedit
      exact hedit.mono (by omega)
    · obtain ⟨_, h⟩ := hp
      obtain ⟨m, hm, hslot⟩ := h.promotable
      exact ⟨m, hm, siteWeight_of_promotable (List.ne_nil_of_mem hslot)⟩

end Deletion

namespace Insertion

variable {r : Rule K} {a : K} {k c : ℕ}

theorem restricts_siteWeight (hw : w.IsWeighted)
    (htotal : isFinite (x.siteTotal fun _ n => w.weight n) = true) :
    x.Restricts w (siteWeight g w x) := by
  refine ⟨hw, htotal, fun p n => ?_⟩
  unfold siteWeight
  split_ifs
  · exact .inr rfl
  · exact .inl rfl

/-- What stands beside a slot adds two logarithms for each of its nodes. -/
theorem logSum_siblings (slot : ℕ) {as : List (Arg K)} (ha : LogSum c a)
    (h : ∀ j t, as[j]? = some (.subtree t) → ∃ lp, g.logProbabilityAt y (p ++ [k + j]) = .ok lp ∧
      LogSum (2 * t.countNodes) lp) :
    ∃ lp, siblingsLogProbability g y p slot a (subtreesFrom k as) = .ok lp ∧
      LogSum (c + 2 * countNodesArgs as) lp := by
  induction as generalizing k c a with
  | nil => exact ⟨a, rfl, ha.mono (Nat.le_add_right c _)⟩
  | cons b as ih =>
    have hrest : ∀ j t, as[j]? = some (.subtree t) →
        ∃ lp, g.logProbabilityAt y (p ++ [k + 1 + j]) = .ok lp ∧
          LogSum (2 * t.countNodes) lp := by
      intro j t hj
      have hnext := h (j + 1) t (by simpa using hj)
      rwa [← Nat.add_assoc, Nat.add_right_comm] at hnext
    cases b with
    | terminal z =>
      rw [subtreesFrom, countNodesArgs]
      exact ih ha hrest
    | subtree t =>
      rw [subtreesFrom, siblingsLogProbability, countNodesArgs]
      split_ifs
      · obtain ⟨lp, hlp, hsum⟩ := ih ha hrest
        exact ⟨lp, hlp, hsum.mono (by omega)⟩
      · obtain ⟨own, hown, hownSum⟩ := h 0 t rfl
        obtain ⟨lp, hlp, hsum⟩ := ih (ha.add hownSum) hrest
        refine ⟨lp, ?_, hsum.mono (by omega)⟩
        rw [Nat.add_zero] at hown
        rw [hown]
        exact hlp

/-- The slots that hold what the first tree has at the place are scored, and the others are passed
over. -/
theorem scoredAll_slots {slots rest : List ℕ}
    (hscore : ∀ slot ∈ rest, ∃ lp, siblingsLogProbability g y p slot (-log (ofNat slots.length))
      n.childrenWithIndex = .ok lp ∧ LogSum c lp) :
    ∃ lps, slotLogProbabilities g x y n p slots rest = .ok lps ∧
      ScoredAll c (fun slot => x.alikeAt p y (p ++ [slot]) = true) rest lps := by
  induction rest with
  | nil => exact ⟨[], rfl, .nil⟩
  | cons slot rest ih =>
    obtain ⟨hslot, hrest⟩ := List.forall_mem_cons.mp hscore
    obtain ⟨lps, hlps, hall⟩ := ih hrest
    rw [slotLogProbabilities]
    split_ifs with halike
    · obtain ⟨lp, hlp, hsum⟩ := hslot
      refine ⟨lp :: lps, ?_, .cons (.of_logSum hsum halike) hall⟩
      rw [hlp, hlps]
      rfl
    · exact ⟨lps, hlps, .skip halike hall⟩

/-- What is generated beside the slots of a node has a score that is finite exactly if some slot
holds what the first tree has at the place. -/
theorem exists_slotScore (hK : Rounded K limit) (hdist : g.DistinctSignatures)
    (hplain : g.PlainNames) (hg : g.IsWeighted) (hx : g.Generable s [] x)
    (hy : g.Generable names [] y) (htotals : g.FiniteTotals w y)
    (hsize : g.moveSize x y ≤ limit) (hagree : AgreeOff Eq x y p) (hm : x.get? p = some m)
    (hn : y.get? p = some n) (hnt : m.nonterminal = n.nonterminal) :
    ∃ r lps, g.ruleForNode (y.variablesAbove p) n = .ok r ∧
      slotLogProbabilities g x y n p r.replicatingSlots r.replicatingSlots = .ok lps ∧
        Scored (2 * y.countNodes) (∃ slot, x.Encloses y p slot) (logSumExp lps) := by
  have hdx := hx.derivable hplain
  have hdy := hy.derivable hplain
  have hnodes := countNodes_le_of_get? hn
  have hargs := countNodes_eq n
  unfold Grammar.moveSize at hsize
  obtain ⟨r, hr, hinst, hrule⟩ := (hdy.derived_at hn).exists_rule hdist hplain.noReservedNames
  have hcount : r.replicatingSlots.length ≤ n.countNodes :=
    Grammar.length_replicatingSlots_le (hy.complete.at_place hn)
      (hy.toDerived.isNonterminal_at hy.complete hn) hinst
  obtain ⟨lps, hlps, hall⟩ : ∃ lps,
      slotLogProbabilities g x y n p r.replicatingSlots r.replicatingSlots = .ok lps ∧
        ScoredAll (1 + 2 * countNodesArgs n.args)
          (fun slot => x.alikeAt p y (p ++ [slot]) = true) r.replicatingSlots lps := by
    refine scoredAll_slots fun slot hslot => ?_
    have hweight : IsWeight (ofNat r.replicatingSlots.length : K) :=
      hK.ofNat_isWeight (List.length_pos_of_mem hslot) (by omega)
    refine logSum_siblings slot (.neg (.log hweight)) fun j t hj => ?_
    have ht : y.get? (p ++ [0 + j]) = some t := get?_concat hn (by simpa using child?_eq_some.mpr hj)
    exact (hy.totaled htotals).logSum_logProbabilityAt hK hg hdist hplain.noReservedNames ht
  have hiff : (∃ slot ∈ r.replicatingSlots, x.alikeAt p y (p ++ [slot]) = true) ↔
      ∃ slot, x.Encloses y p slot := exists_congr fun slot =>
    (encloses_iff hdist hplain hdx hdy hagree hm hn hinst).trans (and_iff_right hnt) |>.symm
  exact ⟨r, lps, hrule, hlps, ((hall.logSumExp hK (by omega)).congr hiff).mono (by omega)⟩

/-- Place by place insertion is scored exactly where the second tree encloses a subtree of the
first. -/
theorem scoredSites_siteLogProbabilities (hK : Rounded K limit) (hdist : g.DistinctSignatures)
    (hplain : g.PlainNames) (hg : g.IsWeighted) (hx : g.Generable s [] x)
    (hy : g.Generable names [] y) (htotals : g.FiniteTotals w y)
    (hsites : x.Restricts w (siteWeight g w x)) (hsize : g.moveSize x y ≤ limit)
    (hplaces : ∀ p ∈ places, (x.get? p).isSome ∧ AgreeOff Eq x y p) :
    ∃ lps, siteLogProbabilities g w (x.siteTotal (siteWeight g w x)) x y places = .ok lps ∧
      ScoredSites (2 * y.countNodes + 3) (siteWeight g w x) x
        (fun p => ∃ slot, x.Encloses y p slot) places lps := by
  have hdx := hx.derivable hplain
  have hdy := hy.derivable hplain
  have hlimit : g.table.allRules.length + 2 * (x.countNodes + y.countNodes) + 6 ≤ limit := hsize
  induction places with
  | nil => exact ⟨[], rfl, .nil⟩
  | cons p places ih =>
    obtain ⟨⟨hsome, hagree⟩, hrest⟩ := List.forall_mem_cons.mp hplaces
    obtain ⟨lps, hlps, hall⟩ := ih hrest
    obtain ⟨⟨m, hm⟩, n, hn⟩ := hagree.headsAlong.exists_get?
    by_cases hnt : m.nonterminal = n.nonterminal
    · obtain ⟨r, slotLps, hrule, hslots, hscored⟩ :=
        exists_slotScore hK hdist hplain hg hx hy htotals hsize hagree hm hn hnt
      rw [siteLogProbabilities_cons hm hn hnt hrule hslots hlps]
      by_cases hrules : replicatingRules g x p = []
      · -- with no rule to offer the place is left out, so it is passed over or undefined
        have hsite : siteWeight g w x p m = 0 := if_pos (by rw [hrules]; rfl)
        obtain ⟨hnever, hnan⟩ := hK.site_left_out (by omega) hm hsite
        have hno : ¬ ∃ slot, x.Encloses y p slot := fun ⟨_, h⟩ =>
          replicatingRules_ne_nil hdist hplain hdx hdy h hrules
        split_ifs with hskip
        · exact ⟨lps, rfl, hall.skip hno⟩
        · refine ⟨_, rfl, hall.cons (fun htotal => absurd ?_ hskip) fun hzero => ?_⟩
          · rw [hnever htotal]
            exact hK.beq_negInf
          · exact hK.nan_add (hK.nan_sub (hnan hzero))
      · have hsite : siteWeight g w x p m = w.weight m := if_neg (by simpa using hrules)
        have hchoose := hsites.logSum_site hK hm hsite
        obtain ⟨-, -, hne⟩ := isFinite_iff.mp (hK.logSum_finite hchoose (by omega))
        have hcount : IsWeight (ofNat (replicatingRules g x p).length : K) :=
          hK.ofNat_isWeight (List.length_pos_iff.mpr hrules)
            ((length_replicatingRules_le hm).trans (by omega))
        refine ⟨_, if_neg (Bool.eq_false_iff.mp hne), hall.cons (fun _ => ?_) fun hzero => ?_⟩
        · exact (hK.add_scored (hchoose.sub hcount.logSum_safeLog) (by omega) hscored).mono (by omega)
        · exact absurd (hzero ▸ hsites.siteTotal_isWeight hK hm hsite) hK.not_isWeight_zero
    · refine ⟨lps, ?_, hall.skip fun ⟨slot, h⟩ => hnt ?_⟩
      · rw [siteLogProbabilities_skip fun m' n' hm' hn' => ?_, hlps]
        rw [← Option.some.inj (hm.symm.trans hm'), ← Option.some.inj (hn.symm.trans hn')]
        exact hnt
      · exact h.nonterminal_eq hdist hplain hdx hdy hm hn

/-- Insertion may be scored from a tree to another exactly if the second one encloses a subtree of
the first. -/
theorem exists_scored (hK : Rounded K limit) (hdist : g.DistinctSignatures)
    (hplain : g.PlainNames) (hg : g.IsWeighted) (hw : w.IsWeighted) (hx : g.Generable s [] x)
    (hy : g.Generable names [] y) (htotal : isFinite (x.siteTotal fun _ n => w.weight n) = true)
    (htotals : g.FiniteTotals w y) (hsize : g.moveSize x y ≤ limit) :
    ∃ lp, logProbability g w x y = .ok lp ∧
      Scored (g.moveSize x y) (∃ p slot, x.Encloses y p slot) lp := by
  have hdx := hx.derivable hplain
  have hdy := hy.derivable hplain
  have hlimit : g.table.allRules.length + 2 * (x.countNodes + y.countNodes) + 6 ≤ limit := hsize
  by_cases hvar : x.Variant y
  · have hnone := (leastCommonDifference_eq_none_iff hdist hplain hdx hdy).mpr hvar
    refine ⟨negInf, logProbability_of_none hnone, .negInf ?_⟩
    rintro ⟨_, _, h⟩
    exact h.not_variant hdist hplain hdx hdy hvar
  · obtain ⟨q, hq, -⟩ := exists_leastCommonDifference hdist hplain hdx hdy hvar
    have hsites := restricts_siteWeight (g := g) hw htotal
    obtain ⟨lps, hlps, hscored⟩ := scoredSites_siteLogProbabilities hK hdist hplain hg hx hy htotals
      hsites hsize fun p hp => (of_mem_editSites hdist hplain hdx hdy p hp).imp_right
        fun h => h ⟨hx.complete, hy.complete⟩
    have hedit := (hscored.logSumExp hK (by omega) hsites fun p hp => ?_).congr
      (exists_editSites_iff hdist hplain hdx hdy fun p hp => hp.elim fun _ h => h.agree)
    · rw [editSites, hq] at hlps
      exact ⟨logSumExp lps, logProbability_of_some hq hlps,
        hedit.mono (by unfold Grammar.moveSize; omega)⟩
    · obtain ⟨_, h⟩ := hp
      obtain ⟨⟨m, hm⟩, -⟩ := h.agree.headsAlong.exists_get?
      have hrules := replicatingRules_ne_nil hdist hplain hdx hdy h
      exact ⟨m, hm, if_neg (by simpa using hrules)⟩

end Insertion

/-- Whatever regeneration is scored for, its score is finite or that of the impossible. -/
theorem Regeneration.exists_scored (hK : Rounded K limit) (hdist : g.DistinctSignatures)
    (hplain : g.PlainNames) (hg : g.IsWeighted) (hw : w.IsWeighted)
    (hy : g.Generable names [] y) (htotal : isFinite (x.siteTotal fun _ n => w.weight n) = true)
    (htotals : g.FiniteTotals w y) (hsize : g.moveSize x y ≤ limit) :
    ∃ lp, logProbability g w x y = .ok lp ∧ (LogSum (g.moveSize x y) lp ∨ lp = negInf) := by
  have hlimit : g.table.allRules.length + 2 * (x.countNodes + y.countNodes) + 6 ≤ limit := hsize
  have hsites : x.Restricts w fun _ n => w.weight n := ⟨hw, htotal, fun _ _ => .inl rfl⟩
  have hplaces : ∀ places : List Place, ∃ lps,
      siteLogProbabilities g w (x.siteTotal fun _ n => w.weight n) x y places = .ok lps ∧
        ∀ lp ∈ lps, LogSum (2 * y.countNodes + 2) lp := by
    intro places
    induction places with
    | nil => exact ⟨[], rfl, by simp⟩
    | cons p places ih =>
      obtain ⟨lps, hlps, hall⟩ := ih
      rw [siteLogProbabilities, hlps]
      cases hm : x.get? p with
      | none => exact ⟨lps, rfl, hall⟩
      | some m =>
        cases hn : y.get? p with
        | none => exact ⟨lps, rfl, hall⟩
        | some n =>
          obtain ⟨lp, hlp, hsum⟩ := (hy.totaled htotals).logSum_logProbabilityAt hK hg hdist
            hplain.noReservedNames hn
          have hnodes := countNodes_le_of_get? hn
          rw [hlp]
          dsimp only
          split_ifs
          · exact ⟨lps, rfl, hall⟩
          · refine ⟨_, rfl, List.forall_mem_cons.mpr ⟨?_, hall⟩⟩
            exact ((hsites.logSum_site hK hm rfl).add hsum).mono (by omega)
  obtain ⟨lps, hlps, hall⟩ := hplaces (x.editSites y)
  refine ⟨logSumExp lps, by rw [logProbability, hlps]; rfl, ?_⟩
  have hscored := hK.logSumExp_scored (fun lp hlp => .inl (hall lp hlp)) (by omega)
  exact (hscored.mono (by unfold Grammar.moveSize; omega)).logSum_or

/-- Whatever copying is scored for, its score is finite or that of the impossible. -/
theorem Copying.logSum_or (hK : Rounded K limit) (hw : w.IsWeighted)
    (htotal : isFinite (x.siteTotal fun _ n => w.weight n) = true)
    (hsize : g.moveSize x y ≤ limit) :
    LogSum (g.moveSize x y) (logProbability w x y) ∨ logProbability w x y = negInf := by
  have hlimit : g.table.allRules.length + 2 * (x.countNodes + y.countNodes) + 6 ≤ limit := hsize
  have hsites : x.Restricts w fun _ n => w.weight n := ⟨hw, htotal, fun _ _ => .inl rfl⟩
  have hpairs : ∀ lp ∈ pairLogProbabilities w x y, LogSum 3 lp := by
    intro lp hlp
    rw [pairLogProbabilities_eq] at hlp
    obtain ⟨source, hsource, hlp⟩ := List.mem_flatMap.mp hlp
    obtain ⟨-, -, rfl⟩ := List.mem_map.mp hlp
    obtain ⟨m, hm, -⟩ := mem_spots.mp hsource
    refine (hsites.logSum_site hK hm rfl).sub (.log (hK.ofNat_isWeight ?_ ?_))
    · exact List.countP_pos_iff.mpr ⟨source, hsource, fits_self source⟩
    · refine List.countP_le_length.trans ?_
      rw [spots_eq, List.length_map, length_subnodes]
      omega
  have hscored := hK.logSumExp_scored (fun lp hlp => .inl (hpairs lp hlp)) (by omega)
  exact (hscored.mono (by unfold Grammar.moveSize; omega)).logSum_or

namespace Kernel

mutual

/-- How deep kernels are mixed. -/
def nesting : Kernel K → ℕ
  | mixture components => nestingAll components + 1
  | regeneration | insert | delete | copy => 0

def nestingAll : List (K × Kernel K) → ℕ
  | [] => 0
  | (_, k) :: components => max k.nesting (nestingAll components)

end

/-- The score of a kernel neither counts nor adds up more than this. A mixture takes two logarithms
for the choice of a component, and one more for the sum over them. -/
def scoreSize (g : Grammar K) (x y : Tree K) (k : Kernel K) : ℕ := g.moveSize x y + 3 * k.nesting

/-- Wherever kernels are mixed, the weights are not negative, and they have a finite sum. -/
inductive IsWeighted : Kernel K → Prop
  | regeneration : IsWeighted .regeneration
  | insert : IsWeighted .insert
  | delete : IsWeighted .delete
  | copy : IsWeighted .copy
  | mixture {components : List (K × Kernel K)}
      (weights : ∀ c ∈ components, le 0 c.1 = true ∧ isFinite c.1 = true)
      (total : isFinite (sum (components.map (·.1))) = true)
      (each : ∀ c ∈ components, c.2.IsWeighted) : IsWeighted (.mixture components)

/-- A kernel may move as another one if it is that kernel, or a mixture that gives positive weight
to a kernel which may move so. -/
inductive MayMoveAs (j : Kernel K) : Kernel K → Prop
  | self : MayMoveAs j j
  | mixture {components : List (K × Kernel K)} {c : K × Kernel K} (mem : c ∈ components)
      (positive : lt 0 c.1 = true) (component : MayMoveAs j c.2) : MayMoveAs j (.mixture components)

variable {j k : Kernel K} {components : List (K × Kernel K)} {total : K} {c : ℕ}

omit [Scalar K] in
theorem nesting_le_nestingAll {d : K × Kernel K} (hd : d ∈ components) :
    d.2.nesting ≤ nestingAll components := by
  induction components with
  | nil => simp at hd
  | cons e components ih =>
    rw [nestingAll]
    rcases List.mem_cons.mp hd with rfl | hd
    · exact le_max_left _ _
    · exact (ih hd).trans (le_max_right _ _)

omit [Scalar K] in
theorem scoreSize_le_mixture {d : K × Kernel K} (hd : d ∈ components) :
    d.2.scoreSize g x y ≤ (mixture components).scoreSize g x y := by
  have hle := nesting_le_nestingAll hd
  rw [scoreSize, scoreSize, nesting]
  omega

/-- A component of positive weight is scored after its choice, and finitely if its own score is
finite. -/
theorem exists_componentScores (hK : Rounded K limit) (hc : c + 2 ≤ limit)
    (hfinite : ∀ d ∈ components, isFinite d.1 = true)
    (htotal : ∀ d ∈ components, lt 0 d.1 = true → IsWeight total)
    (h : ∀ d ∈ components, ∃ lp, d.2.logProbability g w x y = .ok lp ∧ (LogSum c lp ∨ lp = negInf)) :
    ∃ lps, componentLogProbabilities g w x y total components = .ok lps ∧
      (∀ lp ∈ lps, LogSum (c + 2) lp ∨ lp = negInf) ∧
      ∀ d ∈ components, lt 0 d.1 = true → ∀ lp, d.2.logProbability g w x y = .ok lp → LogSum c lp →
        ∃ lp' ∈ lps, LogSum (c + 2) lp' := by
  induction components with
  | nil => exact ⟨[], rfl, by simp, by simp⟩
  | cons d components ih =>
    obtain ⟨hd, hfinite⟩ := List.forall_mem_cons.mp hfinite
    obtain ⟨hdtotal, htotal⟩ := List.forall_mem_cons.mp htotal
    obtain ⟨⟨lp, hlp, hor⟩, hrest⟩ := List.forall_mem_cons.mp h
    obtain ⟨lps, hlps, hall, hsome⟩ := ih hfinite htotal hrest
    rw [componentLogProbabilities]
    split_ifs with hpos
    · have hchoice : LogSum 2 (safeLog d.1 - safeLog total) :=
        .sub (IsWeight.logSum_safeLog ⟨hpos, hd⟩) (hdtotal hpos).logSum_safeLog
      have hown : Scored (c + 2) (LogSum c lp) (safeLog d.1 - safeLog total + lp) := by
        rw [Nat.add_comm]
        exact hK.add_scored hchoice (by omega) ⟨id, hor.resolve_left⟩
      refine ⟨_, by rw [hlp, hlps]; rfl, List.forall_mem_cons.mpr ⟨hown.logSum_or, hall⟩, ?_⟩
      refine List.forall_mem_cons.mpr ⟨fun _ lp' hlp' hsum => ?_, fun e he hepos lp' hlp' hsum => ?_⟩
      · obtain rfl : lp = lp' := Except.ok.inj (hlp.symm.trans hlp')
        exact ⟨_, List.mem_cons_self, hown.1 hsum⟩
      · obtain ⟨z, hz, hzsum⟩ := hsome e he hepos lp' hlp' hsum
        exact ⟨z, List.mem_cons_of_mem _ hz, hzsum⟩
    · exact ⟨lps, hlps, hall, List.forall_mem_cons.mpr ⟨fun h => absurd h hpos, hsome⟩⟩

/-- A mixture is scored if all of its components are, and finitely if one of positive weight is. -/
theorem exists_mixtureScore (hK : Rounded K limit)
    (hsize : (mixture components).scoreSize g x y ≤ limit)
    (hweights : ∀ d ∈ components, le 0 d.1 = true ∧ isFinite d.1 = true)
    (htotal : isFinite (sum (components.map (·.1))) = true)
    (h : ∀ d ∈ components, ∃ lp, d.2.logProbability g w x y = .ok lp ∧
      (LogSum (d.2.scoreSize g x y) lp ∨ lp = negInf)) :
    ∃ lp, (mixture components).logProbability g w x y = .ok lp ∧
      (LogSum ((mixture components).scoreSize g x y) lp ∨ lp = negInf) ∧
      ∀ d ∈ components, lt 0 d.1 = true → ∀ lp', d.2.logProbability g w x y = .ok lp' →
        LogSum (d.2.scoreSize g x y) lp' → LogSum ((mixture components).scoreSize g x y) lp := by
  have hbound : (mixture components).scoreSize g x y =
      g.moveSize x y + 3 * nestingAll components + 3 := by rw [scoreSize, nesting]; omega
  have hle : ∀ d ∈ components,
      d.2.scoreSize g x y ≤ g.moveSize x y + 3 * nestingAll components := fun d hd => by
    have hnesting := nesting_le_nestingAll hd
    rw [scoreSize]
    omega
  have hpositive : ∀ d ∈ components, lt 0 d.1 = true → IsWeight (sum (components.map (·.1))) :=
    fun d hd hpos => ⟨hK.sum_pos (List.forall_mem_map.mpr fun e he => (hweights e he).1)
      ⟨d.1, List.mem_map_of_mem hd, hpos⟩, htotal⟩
  have hscores : ∀ d ∈ components, ∃ lp, d.2.logProbability g w x y = .ok lp ∧
      (LogSum (g.moveSize x y + 3 * nestingAll components) lp ∨ lp = negInf) := fun d hd => by
    obtain ⟨lp, hlp, hor⟩ := h d hd
    exact ⟨lp, hlp, hor.imp_left fun hsum => hsum.mono (hle d hd)⟩
  obtain ⟨lps, hlps, hall, hsome⟩ :=
    exists_componentScores hK (by omega) (fun d hd => (hweights d hd).2) hpositive hscores
  have hscored := hK.logSumExp_scored hall (by omega)
  rw [hbound]
  refine ⟨Scalar.logSumExp lps, by rw [logProbability, hlps]; rfl, hscored.logSum_or, ?_⟩
  exact fun d hd hpos lp' hlp' hsum => hscored.1 (hsome d hd hpos lp' hlp' (hsum.mono (hle d hd)))

section Scored

variable (hK : Rounded K limit) (hdist : g.DistinctSignatures) (hplain : g.PlainNames)
  (hg : g.IsWeighted) (hw : w.IsWeighted) (hx : g.Generable s [] x) (hy : g.Generable names [] y)
  (htotal : isFinite (x.siteTotal fun _ n => w.weight n) = true) (htotals : g.FiniteTotals w y)

include hK hdist hplain hg hw hx hy htotal htotals

/-- Every kernel has a score between two trees, a finite one or that of the impossible. -/
theorem exists_scored (hk : k.IsWeighted) (hsize : k.scoreSize g x y ≤ limit) :
    ∃ lp, k.logProbability g w x y = .ok lp ∧ (LogSum (k.scoreSize g x y) lp ∨ lp = negInf) := by
  induction hk with
  | regeneration =>
    exact Regeneration.exists_scored hK hdist hplain hg hw hy htotal htotals hsize
  | insert =>
    obtain ⟨lp, hlp, hscored⟩ :=
      Insertion.exists_scored hK hdist hplain hg hw hx hy htotal htotals hsize
    exact ⟨lp, hlp, hscored.logSum_or⟩
  | delete =>
    have hscored := Deletion.scored_logProbability (w := w) hK hdist hplain hx hy hsize
    exact ⟨_, rfl, hscored.logSum_or⟩
  | copy => exact ⟨_, rfl, Copying.logSum_or hK hw htotal hsize⟩
  | @mixture components hweights hsum _ ih =>
    obtain ⟨lp, hlp, hor, -⟩ := exists_mixtureScore hK hsize hweights hsum fun d hd =>
      ih d hd ((scoreSize_le_mixture hd).trans hsize)
    exact ⟨lp, hlp, hor⟩

/-- A mixture scores finitely what a kernel that it may move as scores finitely. -/
theorem MayMoveAs.logSum (h : MayMoveAs j k) (hk : k.IsWeighted)
    (hsize : k.scoreSize g x y ≤ limit) {lp : K} (hlp : j.logProbability g w x y = .ok lp)
    (hsum : LogSum (j.scoreSize g x y) lp) :
    ∃ lp', k.logProbability g w x y = .ok lp' ∧ LogSum (k.scoreSize g x y) lp' := by
  induction h with
  | self => exact ⟨lp, hlp, hsum⟩
  | @mixture components d hmem hpos _ ih =>
    cases hk with
    | mixture hweights hfinite heach =>
      obtain ⟨own, hown, hownSum⟩ :=
        ih (heach d hmem) ((scoreSize_le_mixture hmem).trans hsize)
      obtain ⟨lp', hlp', -, hsome⟩ := exists_mixtureScore hK hsize hweights hfinite fun e he =>
        exists_scored hK hdist hplain hg hw hx hy htotal htotals (heach e he)
          ((scoreSize_le_mixture he).trans hsize)
      exact ⟨lp', hlp', hsome d hmem hpos own hown hownSum⟩

end Scored

end Kernel

end ScopedGrammar
