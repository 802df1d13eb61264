import ScopedGrammar.Proofs.Move.Enclosing
import ScopedGrammar.Proofs.Tree.Renamed

/-!
# Which moves are possible

Each move is possible at the places that account for all that the second tree has differently. What
it has to generate there has to keep to the limit of the depth. Nothing is generated by a deletion or
a copy, and by an insertion only what stands beside the slot of the new node.
-/
namespace ScopedGrammar

open Exact ScopedGrammar.Tree

variable {g : Grammar Exact} {w : SiteWeights Exact} {s names : NameSupply}
  {x y m n : Tree Exact} {p : Place}

namespace Regeneration

/-- Regenerating a place is possible exactly if the second tree differs from the first one there
only, by a subtree for the same nonterminal that is within the limit of the depth. -/
theorem probAt_pos_iff (hg : g.Proper) (hx : g.Derivable s x) (hy : g.Derivable names y)
    (hcomplete : g.Complete y) : 0 < probAt g s x y p ↔ AgreeOff Eq x y p ∧
      ∃ m n, x.get? p = some m ∧ y.get? p = some n ∧ m.nonterminal = n.nonterminal ∧
        n.depth ≤ g.maxDepth := by
  by_cases hagree : AgreeOff Eq x y p
  · obtain ⟨⟨m, hm⟩, n, hn⟩ := hagree.headsAlong.exists_get?
    have hiff : (∃ m n, x.get? p = some m ∧ y.get? p = some n ∧ m.nonterminal = n.nonterminal ∧
        n.depth ≤ g.maxDepth) ↔ m.nonterminal = n.nonterminal ∧ n.depth ≤ g.maxDepth := by
      simp [hm, hn]
    rw [and_iff_right hagree, hiff]
    by_cases hnt : m.nonterminal = n.nonterminal
    · have hny := hy.weighted_at hg.positive hn
      have hprob : probAt g s x y p = g.chance (g.maxDepth + 1) (y.variablesAbove p) n := by
        rw [← Grammar.prob_generateIn_aligned hg (hx.derived_at hm).wellNamed
          (hagree.aligned hx hy) hny, probAt, hm, ← hnt]
        refine Sampler.prob_congr fun r s' _ => ?_
        simp [hagree, hn]
      rw [hprob, Grammar.chance_pos_iff (hny.logProbabilityIn_eq hg).1, Nat.lt_succ_iff,
        and_iff_left (hcomplete.at_place hn)]
      exact (and_iff_right hnt).symm
    · rw [probAt_eq_zero_of_ne hm fun n' hn' => Option.some.inj (hn.symm.trans hn') ▸ hnt]
      exact iff_of_false (lt_irrefl _) fun h => hnt h.1
  · rw [probAt_eq_zero hagree]
    exact iff_of_false (lt_irrefl _) fun h => hagree h.1

theorem prob_pos_iff (hg : g.Proper) (hw : w.Positive) (hx : g.Derivable s x)
    (hy : g.Derivable names y) (hcomplete : g.Complete y) :
    0 < ((propose g w x).prob s fun t => t.Variant y) ↔ ∃ p, AgreeOff Eq x y p ∧
      ∃ m n, x.get? p = some m ∧ y.get? p = some n ∧ m.nonterminal = n.nonterminal ∧
        n.depth ≤ g.maxDepth := by
  have hnonneg : ∀ p, 0 ≤ probAt g s x y p := fun p => by
    unfold probAt
    split
    · exact Sampler.prob_nonneg ..
    · exact le_rfl
  rw [prob_propose hw.nonneg, sum_siteShare_pos_iff (fun _ k _ => hw.nonneg.weight k) hnonneg]
  simp only [probAt_pos_iff hg hx hy hcomplete]
  exact exists_congr fun p => and_iff_right_of_imp fun ⟨_, m, _, hm, _⟩ => hw.siteShare_pos hm

end Regeneration

namespace Copying

/-- Copying from a place is possible exactly if some place where the copy fits accounts for all that
the second tree has differently, and is alike there to the source. -/
theorem probAt_pos_iff : 0 < probAt x y p ↔ ∃ q m n, x.get? p = some m ∧ x.get? q = some n ∧
    (spotAt x p m).fits (spotAt x q n) = true ∧ AgreeOff Eq x y q ∧ x.alikeAt p y q = true := by
  classical
  unfold probAt
  split
  · next m hm =>
    have hcount : (0 : ℝ) < (spots x).countP (spotAt x p m).fits :=
      Nat.cast_pos.mpr (List.countP_pos_iff.mpr ⟨_, mem_spots.mpr ⟨m, hm, rfl⟩, fits_self _⟩)
    rw [div_pos_iff_of_pos_right hcount, Nat.cast_pos, List.length_pos_iff_exists_mem]
    constructor
    · rintro ⟨spot, hspot⟩
      obtain ⟨hfits, hedit⟩ := List.mem_filter.mp hspot
      obtain ⟨hmem, hfits⟩ := List.mem_filter.mp hfits
      obtain ⟨n, hn, heq⟩ := mem_spots.mp hmem
      exact ⟨spot.place, m, n, hm, hn, heq ▸ hfits, of_decide_eq_true hedit⟩
    · rintro ⟨q, m', n, hm', hn, hfits, hedit⟩
      obtain rfl : m = m' := Option.some.inj (hm.symm.trans hm')
      refine ⟨spotAt x q n, List.mem_filter.mpr ⟨List.mem_filter.mpr ⟨?_, hfits⟩, ?_⟩⟩
      · exact mem_spots.mpr ⟨n, hn, rfl⟩
      · exact decide_eq_true hedit
  · next hnone =>
    refine iff_of_false (lt_irrefl _) ?_
    rintro ⟨-, m, -, hm, -⟩
    simp [hnone] at hm

theorem prob_pos_iff (hg : g.Proper) (hplain : g.PlainNames) (hw : w.Positive)
    (hx : g.Derivable s x) (hy : g.Derivable names y) :
    0 < ((propose w x).prob s fun t => t.Variant y) ↔ ∃ p q m n, x.get? p = some m ∧
      x.get? q = some n ∧ (spotAt x p m).fits (spotAt x q n) = true ∧ AgreeOff Eq x y q ∧
        x.alikeAt p y q = true := by
  have hnonneg : ∀ p, 0 ≤ probAt x y p := fun p => by
    unfold probAt
    split
    · positivity
    · exact le_rfl
  rw [prob_propose hg.distinct hplain hw.nonneg hx hy (Nat.le_refl _),
    sum_siteShare_pos_iff (fun _ k _ => hw.nonneg.weight k) hnonneg]
  simp only [probAt_pos_iff]
  exact exists_congr fun p => and_iff_right_of_imp fun ⟨_, m, _, hm, _⟩ => hw.siteShare_pos hm

end Copying

namespace Deletion

theorem probAt_nonneg (x y : Tree Exact) (p : Place) : 0 ≤ probAt x y p := by
  unfold probAt
  split
  · split_ifs
    · positivity
    · exact le_rfl
  · exact le_rfl

/-- Deletion is possible at exactly the places at which its tree encloses a subtree of the other. -/
theorem probAt_pos_iff : 0 < probAt y x p ↔ ∃ slot, x.Encloses y p slot := by
  have hmem : ∀ n slot, slot ∈ matchingSlots y x n p ↔
      slot ∈ promotableSlots n ∧ x.alikeAt p y (p ++ [slot]) = true := fun n slot => by
    rw [matchingSlots, List.mem_filter, alikeAt_comm]
  constructor
  · intro hpos
    unfold probAt at hpos
    split at hpos
    · next n hn =>
      split_ifs at hpos with hagree
      · have hsome : matchingSlots y x n p ≠ [] := fun hnone => by simp [hnone] at hpos
        obtain ⟨slot, hslot⟩ := List.exists_mem_of_ne_nil _ hsome
        obtain ⟨hpromotable, halike⟩ := (hmem n slot).mp hslot
        exact ⟨slot, agreeOff_comm.mp hagree, ⟨n, hn, hpromotable⟩, halike⟩
      · exact absurd hpos (lt_irrefl _)
    · exact absurd hpos (lt_irrefl _)
  · rintro ⟨slot, hagree, ⟨n, hn, hpromotable⟩, halike⟩
    have hslot := (hmem n slot).mpr ⟨hpromotable, halike⟩
    rw [probAt, hn]
    dsimp only
    rw [if_pos (agreeOff_comm.mp hagree)]
    exact div_pos (Nat.cast_pos.mpr (List.length_pos_of_mem hslot))
      (Nat.cast_pos.mpr (List.length_pos_of_mem hpromotable))

/-- Deletion may come to a tree exactly if it starts from one that encloses a subtree of it. -/
theorem prob_pos_iff (hdist : g.DistinctSignatures) (hplain : g.PlainNames) (hw : w.Nonneg)
    (hx : g.Derivable s x) (hy : g.Derivable names y) :
    0 < ((propose w y).prob names fun t => t.Variant x) ↔ ∃ p slot, x.Encloses y p slot := by
  have hweight : ∀ q k, y.get? q = some k → (siteWeight w q k).Nonneg :=
    fun q k _ => weight_nonneg hw q k
  rw [prob_propose hdist hplain hw hy hx, sum_siteShare_pos_iff hweight (probAt_nonneg y x)]
  simp only [probAt_pos_iff]
  refine exists_congr fun p => and_iff_right_of_imp ?_
  rintro ⟨slot, -, ⟨n, hn, hpromotable⟩, -⟩
  have hone : (siteWeight w p n).toReal = 1 := by
    rw [siteWeight_of_promotable (List.ne_nil_of_mem hpromotable)]
    rfl
  rw [siteShare_eq hn, hone]
  exact one_div_pos.mpr (siteSum_pos hweight hn (hone ▸ one_pos))

end Deletion

namespace Insertion

variable {r : Rule Exact}

theorem probAt_nonneg (g : Grammar Exact) (s : NameSupply) (x y : Tree Exact) (p : Place) :
    0 ≤ probAt g s x y p := by
  unfold probAt
  split
  · exact Sampler.prob_nonneg ..
  · exact le_rfl

/-- What stands beside a slot of a node keeps to a limit of the depth. -/
def BesideWithin (limit : ℕ) (n : Tree Exact) (slot : ℕ) : Prop :=
  ∀ c, .subtree c ∈ siblings slot 0 n.args → c.depth ≤ limit

theorem besideWithin_of_depth_le {limit : ℕ} (hn : y.get? p = some n) (hdepth : y.depth ≤ limit)
    (slot : ℕ) : BesideWithin limit n slot := by
  intro c hc
  have hlt : c.depth < n.depth :=
    depth_lt_succ_iff.mp (Nat.lt_succ_self n.depth) c (mem_of_mem_siblings hc)
  have hle := depth_le_of_get? hn
  omega

/-- What stands beside a slot may be generated exactly if it is within the limit of the depth. -/
theorem siblings_prod_pos_iff (hg : g.Proper) (hy : g.Derivable names y) (hcomplete : g.Complete y)
    (hn : y.get? p = some n) (slot : ℕ) :
    0 < ((siblings slot 0 n.args).map
      (g.argChance (g.maxDepth + 1) (Scope.below (y.variablesAbove p) n.kind))).prod ↔
        BesideWithin g.maxDepth n slot := by
  have hny := hy.weighted_at hg.positive hn
  obtain ⟨hfilled, hargs⟩ := Grammar.complete_iff.mp (hcomplete.at_place hn)
  constructor
  · intro hpos c hc
    by_contra hdeep
    have hchance : g.chance (g.maxDepth + 1) (Scope.below (y.variablesAbove p) n.kind) c = 0 :=
      if_neg fun h => hdeep (Nat.le_of_lt_succ h.1)
    have hzero : g.argChance (g.maxDepth + 1) (Scope.below (y.variablesAbove p) n.kind)
        (.subtree c) = 0 := by
      rw [Grammar.argChance, hchance, ite_self]
    exact hpos.ne' (List.prod_eq_zero (List.mem_map.mpr ⟨_, hc, hzero⟩))
  · intro hwithin
    refine List.prod_pos fun z hz => ?_
    obtain ⟨a, ha, rfl⟩ := List.mem_map.mp hz
    have hmem := mem_of_mem_siblings ha
    have hsub : ∀ c, a = .subtree c → c.depth < g.maxDepth + 1 ∧ g.Complete c := by
      rintro c rfl
      exact ⟨Nat.lt_succ_of_le (hwithin c ha), hargs c hmem⟩
    rw [Grammar.argChance_eq (hfilled a hmem) hsub]
    cases a with
    | terminal z => exact one_pos
    | subtree c => exact ((hny.child hg.positive hmem).logProbabilityIn_eq hg).1

/-- Where the trees agree off a place, insertion is possible exactly if some slot of the counterpart
holds what the first tree has there, and what stands beside it is within the limit of the depth. -/
theorem Counterpart.probAt_pos_iff (h : Counterpart g s x y m n p r) (hg : g.Proper)
    (hy : g.Derivable names y) (hcomplete : g.Complete y)
    (hm : x.get? p = some m) (hn : y.get? p = some n) : 0 < probAt g s x y p ↔
      ∃ slot ∈ r.replicatingSlots, x.alikeAt p y (p ++ [slot]) = true ∧
        BesideWithin g.maxDepth n slot := by
  have hruleProb : 0 < ruleProb g s x y m p r ↔
      ∃ slot ∈ r.replicatingSlots, x.alikeAt p y (p ++ [slot]) = true ∧
        BesideWithin g.maxDepth n slot := by
    rw [ruleProb, average_pos_iff fun slot _ => Sampler.prob_nonneg ..]
    refine exists_congr fun slot => and_congr_right fun hslot => ?_
    rw [h.prob_eq slot hslot]
    split_ifs with halike
    · rw [siblings_prod_pos_iff hg hy hcomplete hn]
      exact (and_iff_right halike).symm
    · exact iff_of_false (lt_irrefl _) fun h => halike h.1
  rw [← hruleProb, ← h.sum_eq, probAt_eq hm, average_pos_iff fun _ _ => ruleProb_nonneg,
    sum_map_pos_iff fun _ _ => ruleProb_nonneg]

/-- Insertion is possible at exactly the places at which the second tree encloses a subtree of the
first within the limit of the depth. -/
theorem probAt_pos_iff (hg : g.Proper) (hplain : g.PlainNames) (hx : g.Derivable s x)
    (hy : g.Derivable names y) (hcomplete : g.Complete y) :
    0 < probAt g s x y p ↔ ∃ slot, x.Encloses y p slot ∧
      ∀ n, y.get? p = some n → BesideWithin g.maxDepth n slot := by
  by_cases hagree : AgreeOff Eq x y p
  · obtain ⟨⟨m, hm⟩, n, hn⟩ := hagree.headsAlong.exists_get?
    have hiff : ∀ slot, x.alikeAt p y (p ++ [slot]) = true →
        (slot ∈ Deletion.promotableSlots n ↔ m.nonterminal = n.nonterminal ∧
          (n.args.map Arg.symbol)[slot]? = some n.nonterminal) := fun slot =>
      mem_promotableSlots_iff hg.distinct hplain hx hy hagree hm hn
    by_cases hnt : m.nonterminal = n.nonterminal
    · obtain ⟨r, hr⟩ := exists_counterpart hg hplain hx hy hagree hm hn hnt
      rw [hr.probAt_pos_iff hg hy hcomplete hm hn]
      refine exists_congr fun slot => ?_
      rw [Rule.mem_replicatingSlots, hr.nonterminal_eq, hr.symbols_eq]
      constructor
      · rintro ⟨hslot, halike, hwithin⟩
        refine ⟨⟨hagree, ⟨n, hn, (hiff slot halike).mpr ⟨hnt, hslot⟩⟩, halike⟩, fun n' hn' => ?_⟩
        obtain rfl : n = n' := Option.some.inj (hn.symm.trans hn')
        exact hwithin
      · rintro ⟨⟨-, ⟨n', hn', hslot⟩, halike⟩, hwithin⟩
        obtain rfl : n = n' := Option.some.inj (hn.symm.trans hn')
        exact ⟨((hiff slot halike).mp hslot).2, halike, hwithin n hn⟩
    · refine iff_of_false ?_ ?_
      · rw [probAt_eq_zero_of_ne hm fun n' hn' => Option.some.inj (hn.symm.trans hn') ▸ hnt]
        exact lt_irrefl _
      · rintro ⟨slot, ⟨-, ⟨n', hn', hslot⟩, halike⟩, -⟩
        obtain rfl : n = n' := Option.some.inj (hn.symm.trans hn')
        exact hnt ((hiff slot halike).mp hslot).1
  · rw [probAt_eq_zero hagree]
    exact iff_of_false (lt_irrefl _) fun ⟨_, h, _⟩ => hagree h.agree

/-- Insertion may come to a tree exactly if that encloses a subtree of the first one, and what
stands beside the subtree is within the limit of the depth. -/
theorem prob_pos_iff (hg : g.Proper) (hplain : g.PlainNames) (hw : w.Positive)
    (hx : g.Derivable s x) (hy : g.Derivable names y) (hcomplete : g.Complete y) :
    0 < ((propose g w x).prob s fun t => t.Variant y) ↔ ∃ p slot, x.Encloses y p slot ∧
      ∀ n, y.get? p = some n → BesideWithin g.maxDepth n slot := by
  have hweight : ∀ q k, x.get? q = some k → (siteWeight g w x q k).Nonneg :=
    fun q k _ => weight_nonneg hw.nonneg q k
  rw [prob_propose hw.nonneg, sum_siteShare_pos_iff hweight (probAt_nonneg g s x y)]
  simp only [← probAt_pos_iff hg hplain hx hy hcomplete]
  refine exists_congr fun p => and_iff_right_of_imp fun hpos => ?_
  -- a place where something can be put in has a rule to offer, so it may be drawn
  cases hm : x.get? p with
  | none =>
    rw [probAt, hm] at hpos
    exact absurd hpos (lt_irrefl _)
  | some m =>
    have hrules : replicatingRules g x p ≠ [] := fun hnone => by
      simp [probAt_eq hm, hnone] at hpos
    have hsite : siteWeight g w x p m = w.weight m := by
      rw [siteWeight, if_neg (by simpa using hrules)]
    have hsitePos : 0 < (siteWeight g w x p m).toReal := hsite ▸ (hw.weight m).toReal_pos
    rw [siteShare_eq hm]
    exact div_pos hsitePos (siteSum_pos hweight hm hsitePos)

end Insertion

end ScopedGrammar
