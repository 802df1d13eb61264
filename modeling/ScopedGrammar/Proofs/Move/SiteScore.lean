import ScopedGrammar.Proofs.Grammar.FiniteScore
import ScopedGrammar.Proofs.Move.Enclosing

/-!
# Finite scores of sites

The score of a site takes the logarithms of its weight and of the total weight. It is finite, however
numbers are rounded, if the site is not left out and the total does not overflow; what else a move
counts at a site is limited by the numbers of nodes and of rules.
-/
namespace ScopedGrammar

open Scalar ScopedGrammar.Tree

variable {K : Type}

section Counts

variable {g : Grammar K} {t n : Tree K} {p : Place}

theorem Tree.countNodes_le_of_get? (hn : t.get? p = some n) : n.countNodes ≤ t.countNodes := by
  induction p generalizing t with
  | nil =>
    obtain rfl : t = n := by simpa using hn
    exact Nat.le_refl _
  | cons i p ih =>
    obtain ⟨c, hc, hcn⟩ := get?_cons_eq_some.mp hn
    exact Nat.le_trans (ih hcn) (countNodes_lt_of_child? hc).le

theorem Tree.length_variablesAbove_lt (hn : t.get? p = some n) :
    (t.variablesAbove p).length < t.countNodes := by
  induction p generalizing t with
  | nil =>
    rw [variablesAbove_nil, countNodes_eq]
    exact Nat.lt_of_lt_of_le Nat.zero_lt_one (Nat.le_add_right 1 _)
  | cons i p ih =>
    obtain ⟨c, hc, hcn⟩ := get?_cons_eq_some.mp hn
    have hlt := countNodes_lt_of_child? hc
    have hrest := ih hcn
    have hown : t.introduced?.toList.length ≤ 1 := by cases t.introduced? <;> simp
    rw [variablesAbove_cons hc, List.length_append]
    omega

theorem Tree.length_childrenWithIndex_le (t : Tree K) :
    t.childrenWithIndex.length ≤ t.countNodes := by
  have hargs : ∀ (as : List (Arg K)) (k : ℕ), (subtreesFrom k as).length ≤ countNodesArgs as := by
    intro as
    induction as with
    | nil => exact fun k => Nat.le_refl _
    | cons a as ih =>
      intro k
      cases a with
      | terminal z => exact ih (k + 1)
      | subtree c =>
        have hrest := ih (k + 1)
        rw [subtreesFrom, List.length_cons, countNodesArgs, countNodes_eq]
        omega
  rw [countNodes_eq]
  exact Nat.le_trans (hargs t.args 0) (Nat.le_add_left _ 1)

theorem Deletion.length_promotableSlots_le (n : Tree K) :
    (promotableSlots n).length ≤ n.countNodes := by
  rw [promotableSlots, List.length_map]
  exact (List.length_filter_le _ _).trans n.length_childrenWithIndex_le

theorem Grammar.length_visibleRules_le (g : Grammar K) (nt : String) (S : Scope K) :
    (g.visibleRules nt S).length ≤ g.table.allRules.length + S.length := by
  rw [visibleRules, List.length_append]
  exact Nat.add_le_add (Rows.sublist_of_rulesFor g.table.rows nt).length_le
    (List.length_filter_le _ _)

theorem Insertion.length_replicatingRules_le (hn : t.get? p = some n) :
    (replicatingRules g t p).length ≤ g.table.allRules.length + t.countNodes := by
  rw [replicatingRules, hn]
  refine (List.length_filter_le _ _).trans ((g.length_visibleRules_le _ _).trans ?_)
  exact Nat.add_le_add_left (length_variablesAbove_lt hn).le _

/-- In a complete tree a rule of a node has no more slots for its nonterminal than the node has
subtrees. -/
theorem Grammar.length_replicatingSlots_le {r : Rule K} (hcomplete : g.Complete n)
    (hnt : g.isNonterminal n.nonterminal = true) (hinst : g.IsInstance r n) :
    r.replicatingSlots.length ≤ n.countNodes := by
  have hnodup : r.replicatingSlots.Nodup := by
    refine (List.Sublist.map _ List.filter_sublist).nodup ?_
    rw [List.zipIdx_map_snd]
    exact List.nodup_range'
  have hsub : r.replicatingSlots ⊆ n.childrenWithIndex.map (·.1) := by
    intro slot hslot
    rw [Rule.mem_replicatingSlots, ← hinst.symbols_eq, hinst.nonterminal_eq,
      List.getElem?_map] at hslot
    obtain ⟨a, ha, hsymbol⟩ := Option.map_eq_some_iff.mp hslot
    obtain ⟨hall, -⟩ := hcomplete
    have hfilled := hall a (List.mem_of_getElem? ha)
    rw [hsymbol, hnt] at hfilled
    cases a with
    | terminal z => cases hfilled
    | subtree c =>
      exact List.mem_map.mpr ⟨(slot, c), mem_childrenWithIndex.mpr (child?_eq_some.mpr ha), rfl⟩
  have hle := (hnodup.subperm hsub).length_le
  rw [List.length_map] at hle
  exact hle.trans n.length_childrenWithIndex_le

/-- The scores of moves that are not mixed neither count nor add up more than this. -/
def Grammar.moveSize (g : Grammar K) (x y : Tree K) : ℕ :=
  g.table.allRules.length + 2 * (x.countNodes + y.countNodes) + 6

theorem Grammar.moveSize_comm (g : Grammar K) (x y : Tree K) : g.moveSize x y = g.moveSize y x := by
  rw [moveSize, moveSize, Nat.add_comm x.countNodes]

end Counts

variable {g : Grammar K} {s names : NameSupply} {x y m n : Tree K} {p : Place}

/-- An edit is one at a site that may account for the differences. -/
theorem Tree.exists_editSites_iff (hdist : g.DistinctSignatures) (hplain : g.PlainNames)
    (hx : g.Derivable s x) (hy : g.Derivable names y)
    {possible : Place → Prop} (hagree : ∀ p, possible p → AgreeOff Eq x y p) :
    (∃ p ∈ x.editSites y, possible p) ↔ ∃ p, possible p := by
  refine ⟨fun ⟨p, _, hp⟩ => ⟨p, hp⟩, fun ⟨p, hp⟩ => ⟨p, ?_, hp⟩⟩
  obtain ⟨⟨m, hm⟩, -⟩ := (hagree p hp).headsAlong.exists_get?
  exact ((editSites_spec hdist hplain hx hy).2 p).mpr
    ⟨by simp [hm], mayAccount_of_agreeOff hdist hplain hx hy (hagree p hp)⟩

variable [Scalar K] {limit : ℕ} {w : SiteWeights K}

/-- A weight that is set for leaves is positive and finite. -/
def SiteWeights.IsWeighted : SiteWeights K → Prop
  | uniform => True
  | leaves weight => IsWeight weight

theorem SiteWeights.IsWeighted.weight (hK : Rounded K limit) (h : w.IsWeighted) (t : Tree K) :
    IsWeight (w.weight t) := by
  cases w with
  | uniform => exact hK.one_isWeight
  | leaves weight =>
    rw [SiteWeights.weight]
    split_ifs
    · exact h
    · exact hK.one_isWeight

/-- The weights that the score of a move takes the sum of do not add up to infinity in a tree: those
of the rules that are visible at a node, and those of the nodes. -/
structure Grammar.FiniteTotals (g : Grammar K) (w : SiteWeights K) (t : Tree K) : Prop where
  visible : ∀ p n, t.get? p = some n →
    isFinite (g.visibleWeight n.nonterminal (t.variablesAbove p)) = true
  sites : isFinite (t.siteTotal fun _ n => w.weight n) = true

theorem Grammar.Generable.totaled (h : g.Generable names [] y) (htotals : g.FiniteTotals w y) :
    g.Totaled names [] y :=
  ⟨h.toDerived, by simp, by simpa using htotals.visible⟩

section Sites

variable {weight : Place → Tree K → K} {places : List Place} {lps : List K} {lp : K} {k : ℕ}
  {possible : Place → Prop}

/-- The sites of a tree have weights that add up to a finite number, and some sites are left out. -/
structure Tree.Restricts (w : SiteWeights K) (weight : Place → Tree K → K) (x : Tree K) : Prop where
  weighted : w.IsWeighted
  total : isFinite (x.siteTotal fun _ n => w.weight n) = true
  weight_or : ∀ p n, weight p n = w.weight n ∨ weight p n = 0

namespace Tree.Restricts

variable (h : x.Restricts w weight) (hK : Rounded K limit)

include h hK

theorem isFinite_siteTotal : isFinite (x.siteTotal weight) = true := by
  refine hK.sum_finite_of_le (fun z _ => ?_) h.total
  obtain ⟨hpos, hfinite⟩ := h.weighted.weight hK z.2
  rcases h.weight_or z.1 z.2 with heq | heq
  · rw [heq]
    exact ⟨hK.le_of_lt hpos, hK.le_refl hfinite⟩
  · rw [heq]
    exact ⟨hK.le_refl hK.isFinite_zero, hK.le_of_lt hpos⟩

theorem siteTotal_isWeight (hm : x.get? p = some m) (hsite : weight p m = w.weight m) :
    IsWeight (x.siteTotal weight) := by
  refine ⟨hK.sum_pos (List.forall_mem_map.mpr fun z _ => ?_)
    ⟨_, List.mem_map_of_mem (mem_subnodes.mpr hm), ?_⟩, h.isFinite_siteTotal hK⟩
  · rcases h.weight_or z.1 z.2 with heq | heq
    · rw [heq]
      exact hK.le_of_lt (h.weighted.weight hK z.2).1
    · rw [heq]
      exact hK.le_refl hK.isFinite_zero
  · exact hsite ▸ (h.weighted.weight hK m).1

theorem logSum_site (hm : x.get? p = some m) (hsite : weight p m = w.weight m) :
    LogSum 2 (x.siteLogProbabilityOf (x.siteTotal weight) weight p) := by
  rw [siteLogProbabilityOf, hm]
  refine .sub ?_ (h.siteTotal_isWeight hK hm hsite).logSum_safeLog
  rw [hsite]
  exact (h.weighted.weight hK m).logSum_safeLog

theorem isWeight_or_zero : IsWeight (x.siteTotal weight) ∨
    x.siteTotal weight = 0 ∧ ∀ p m, x.get? p = some m → weight p m = 0 := by
  by_cases hsome : ∃ p m, x.get? p = some m ∧ weight p m = w.weight m
  · obtain ⟨p, m, hm, hsite⟩ := hsome
    exact .inl (h.siteTotal_isWeight hK hm hsite)
  · have hzero : ∀ p m, x.get? p = some m → weight p m = 0 := fun p m hm =>
      (h.weight_or p m).resolve_left fun hsite => hsome ⟨p, m, hm, hsite⟩
    refine .inr ⟨hK.sum_zero (List.forall_mem_map.mpr fun z hz => ?_), hzero⟩
    exact hzero z.1 z.2 (mem_subnodes.mp hz)

end Tree.Restricts

/-- The score of a site that is left out is that of the impossible, or undefined if all are. -/
theorem Scalar.Rounded.site_left_out (hK : Rounded K limit) (hlimit : 1 ≤ limit)
    (hm : x.get? p = some m) (hsite : weight p m = 0) :
    (IsWeight (x.siteTotal weight) →
      x.siteLogProbabilityOf (x.siteTotal weight) weight p = negInf) ∧
    (x.siteTotal weight = 0 →
      isNaN (x.siteLogProbabilityOf (x.siteTotal weight) weight p) = true) := by
  rw [siteLogProbabilityOf, hm]
  dsimp only
  rw [hsite, hK.safeLog_zero]
  refine ⟨fun htotal => ?_, fun hzero => ?_⟩
  · exact hK.negInf_sub (hK.logSum_finite htotal.logSum_safeLog hlimit)
  · rw [hzero, hK.safeLog_zero]
    exact hK.negInf_sub_negInf

/-- The scores of an edit at some places. Where all sites are left out they are undefined. -/
structure Tree.ScoredSites (k : ℕ) (weight : Place → Tree K → K) (x : Tree K)
    (possible : Place → Prop) (places : List Place) (lps : List K) : Prop where
  scored : IsWeight (x.siteTotal weight) → ScoredAll k possible places lps
  undefined : x.siteTotal weight = 0 → ∀ lp ∈ lps, isNaN lp = true

namespace Tree.ScoredSites

theorem nil : ScoredSites k weight x possible [] [] := ⟨fun _ => .nil, by simp⟩

theorem skip (h : ScoredSites k weight x possible places lps) (hp : ¬ possible p) :
    ScoredSites k weight x possible (p :: places) lps :=
  ⟨fun htotal => (h.scored htotal).skip hp, h.undefined⟩

theorem cons (h : ScoredSites k weight x possible places lps)
    (hscored : IsWeight (x.siteTotal weight) → Scored k (possible p) lp)
    (hnan : x.siteTotal weight = 0 → isNaN lp = true) :
    ScoredSites k weight x possible (p :: places) (lp :: lps) :=
  ⟨fun htotal => (h.scored htotal).cons (hscored htotal),
    fun hzero => List.forall_mem_cons.mpr ⟨hnan hzero, h.undefined hzero⟩⟩

theorem logSumExp (hK : Rounded K limit) (h : ScoredSites k weight x possible places lps)
    (hk : k ≤ limit) (hsites : x.Restricts w weight)
    (hpossible : ∀ p, possible p → ∃ m, x.get? p = some m ∧ weight p m = w.weight m) :
    Scored (k + 1) (∃ p ∈ places, possible p) (Scalar.logSumExp lps) := by
  rcases hsites.isWeight_or_zero hK with htotal | ⟨hzero, -⟩
  · exact (h.scored htotal).logSumExp hK hk
  · rw [hK.logSumExp_nan (h.undefined hzero)]
    refine .negInf ?_
    rintro ⟨p, -, hp⟩
    obtain ⟨m, hm, hsite⟩ := hpossible p hp
    have hpos := (hsites.siteTotal_isWeight hK hm hsite).1
    rw [hzero, hK.lt_irrefl] at hpos
    cases hpos

end Tree.ScoredSites

end Sites

end ScopedGrammar
