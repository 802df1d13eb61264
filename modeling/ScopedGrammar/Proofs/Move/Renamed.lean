import Mathlib.Data.String.Basic
import ScopedGrammar.Proofs.Move.Closure
import ScopedGrammar.Proofs.Tree.Renamed

/-!
# Scores do not see names

How likely a kernel is to turn one tree into another does not depend on the names that the variables
of the first tree happen to have. Whatever a score looks at there is the same in a variant: the
nodes in their order, what is written of them, the rules that are visible, and which places see the
same variables.
-/
namespace ScopedGrammar

open ScopedGrammar.Tree

variable {K : Type} {g : Grammar K} {s s' : NameSupply} {x x' y m m' n n' : Tree K} {p q : Place}

/-- The trees are derivable and differ at most by the names of their variables. -/
structure Grammar.Renames (g : Grammar K) (s s' : NameSupply) (x x' : Tree K) : Prop where
  left : g.Derivable s x
  right : g.Derivable s' x'
  variant : x.Variant x'

namespace Grammar.Renames

section Nodes

theorem at_place (h : g.Renames s s' x x') (hm : x.get? p = some m) (hm' : x'.get? p = some m') :
    HeadsAlong Eq x x' p ∧ m.VariantOver (Matching.along Eq x x' p) m' := by
  obtain ⟨hagree, n, hn, hmn⟩ := VariantOver.at_place h.variant hm
  obtain rfl : n = m' := Option.some.inj (hn.symm.trans hm')
  exact ⟨hagree.headsAlong, hmn⟩

theorem get?_cases (h : g.Renames s s' x x') (p : Place) :
    (x.get? p = none ∧ x'.get? p = none) ∨ ∃ m m', x.get? p = some m ∧ x'.get? p = some m' := by
  have hrel := VariantOver.rel_get? h.variant p
  revert hrel
  generalize x.get? p = a?
  generalize x'.get? p = b?
  rintro (⟨-⟩ | -)
  · exact .inr ⟨_, _, rfl, rfl⟩
  · exact .inl ⟨rfl, rfl⟩

end Nodes

section Texts

variable (hdist : g.DistinctSignatures) (hplain : g.PlainNames) (h : g.Renames s s' x x')
include hdist hplain h

theorem canonicalAt_eq (p : Place) : x.canonicalAt p = x'.canonicalAt p := by
  rcases h.get?_cases p with ⟨hx, hx'⟩ | ⟨m, m', hm, hm'⟩
  · rw [canonicalAt, canonicalAt, hx, hx']
    rfl
  · obtain ⟨hheads, hmm'⟩ := h.at_place hm hm'
    exact (canonicalAt_eq_iff hm hm').mpr
      ((hheads.alikeAt_iff hdist hplain h.left h.right hm hm').mpr hmm')

omit hdist in
theorem headAt_eq (p : Place) : x.headAt p = x'.headAt p := by
  rcases h.get?_cases p with ⟨hx, hx'⟩ | ⟨m, m', hm, hm'⟩
  · rw [headAt, headAt, hx, hx']
    rfl
  · obtain ⟨hheads, hmm'⟩ := h.at_place hm hm'
    exact headAt_eq_of_headOver hplain h.left h.right hheads hm hm' hmm'.head
      (symbols_eq_of_forall₂ hmm'.args)

theorem alikeAt_eq (p q : Place) : x.alikeAt p y q = x'.alikeAt p y q := by
  rw [alikeAt, alikeAt, h.canonicalAt_eq hdist hplain]

theorem differingChildren_eq (hm : x.get? p = some m) (hm' : x'.get? p = some m') :
    x.differingChildren y m p = x'.differingChildren y m' p := by
  obtain ⟨-, hmm'⟩ := h.at_place hm hm'
  have hpositions : m.childrenWithIndex.map (·.1) = m'.childrenWithIndex.map (·.1) :=
    map_eq_of_forall₂ hmm'.childrenWithIndex fun _ _ hcd => hcd.1
  simp only [differingChildren, hpositions, h.canonicalAt_eq hdist hplain]

theorem descend_eq (levels : ℕ) (hm : x.get? p = some m) (hm' : x'.get? p = some m') :
    descend x y levels m p = descend x' y levels m' p := by
  induction levels generalizing m m' p with
  | zero => rfl
  | succ levels ih =>
    rw [descend, descend, h.headAt_eq hplain, h.differingChildren_eq hdist hplain hm hm']
    cases y.get? p with
    | none => rfl
    | some n =>
      dsimp only
      split
      · rfl
      · split
        · next i _ =>
          have hc : x.get? (p ++ [i]) = m.child? i := by simp [get?_append, hm]
          have hc' : x'.get? (p ++ [i]) = m'.child? i := by simp [get?_append, hm']
          rcases h.get?_cases (p ++ [i]) with ⟨hnone, hnone'⟩ | ⟨c, c', hsome, hsome'⟩
          · rw [← hc, ← hc', hnone, hnone']
          · rw [← hc, ← hc', hsome, hsome']
            cases n.child? i with
            | none => rfl
            | some d => exact ih hsome hsome'
        · rfl

theorem leastCommonDifference_eq : x.leastCommonDifference y = x'.leastCommonDifference y := by
  have hcanonical : x.canonical = x'.canonical :=
    beq_iff_eq.mp ((alike_iff hdist hplain h.left h.right).mpr h.variant)
  rw [leastCommonDifference, leastCommonDifference, alike, alike, hcanonical,
    VariantOver.depth_eq h.variant, h.descend_eq hdist hplain _ (get?_nil x) (get?_nil x')]

theorem editSites_eq : x.editSites y = x'.editSites y := by
  rw [editSites, editSites, h.leastCommonDifference_eq hdist hplain,
    VariantOver.places_eq h.variant]

end Texts

section Weights

variable [Scalar K] {weight weight' : Place → Tree K → K}

/-- Corresponding nodes weigh the same. -/
def SameWeights (x x' : Tree K) (weight weight' : Place → Tree K → K) : Prop :=
  ∀ p m m', x.get? p = some m → x'.get? p = some m' → weight p m = weight' p m'

variable (h : g.Renames s s' x x') (hweight : SameWeights x x' weight weight')
include h

theorem weight_eq (w : SiteWeights K) (hm : x.get? p = some m) (hm' : x'.get? p = some m') :
    w.weight m = w.weight m' := by
  obtain ⟨-, hmm'⟩ := h.at_place hm hm'
  cases w with
  | uniform => rfl
  | leaves v => rw [SiteWeights.weight, SiteWeights.weight, hmm'.isLeaf_eq]

theorem sameWeights (w : SiteWeights K) :
    SameWeights x x' (fun _ n => w.weight n) (fun _ n => w.weight n) :=
  fun _ _ _ hm hm' => h.weight_eq w hm hm'

include hweight

theorem siteTotal_eq : x.siteTotal weight = x'.siteTotal weight' := by
  rw [siteTotal, siteTotal, map_eq_of_forall₂ (VariantOver.forall₂_subnodes h.variant)]
  rintro ⟨p, m⟩ ⟨-, m'⟩ ⟨rfl, hm, hm'⟩
  exact hweight p m m' hm hm'

theorem siteLogProbabilityOf_eq (total : K) (p : Place) :
    x.siteLogProbabilityOf total weight p = x'.siteLogProbabilityOf total weight' p := by
  rcases h.get?_cases p with ⟨hx, hx'⟩ | ⟨m, m', hm, hm'⟩
  · rw [siteLogProbabilityOf, siteLogProbabilityOf, hx, hx']
  · rw [siteLogProbabilityOf, siteLogProbabilityOf, hm, hm']
    simp only [hweight p m m' hm hm']

end Weights

end Grammar.Renames

namespace Regeneration

variable [Scalar K]

theorem siteLogProbabilities_eq (h : g.Renames s s' x x') (w : SiteWeights K) (total : K)
    (ps : List Place) :
    siteLogProbabilities g w total x y ps = siteLogProbabilities g w total x' y ps := by
  induction ps with
  | nil => rfl
  | cons p ps ih =>
    rw [siteLogProbabilities, siteLogProbabilities, ih,
      h.siteLogProbabilityOf_eq (h.sameWeights w)]
    rcases h.get?_cases p with ⟨hx, hx'⟩ | ⟨m, m', hm, hm'⟩
    · rw [hx, hx']
    · rw [hm, hm']
      cases y.get? p with
      | none => rfl
      | some n => simp only [(h.at_place hm hm').2.nonterminal_eq]

theorem logProbability_eq (hdist : g.DistinctSignatures) (hplain : g.PlainNames)
    (h : g.Renames s s' x x') (w : SiteWeights K) :
    logProbability g w x y = logProbability g w x' y := by
  rw [logProbability, logProbability, h.editSites_eq hdist hplain,
    h.siteTotal_eq (h.sameWeights w)]
  simp only [siteLogProbabilities_eq h]

end Regeneration

namespace Deletion

/-- Whether an argument can take the place of a node does not depend on names. -/
theorem promotableSlots_eq {M : Matching} (h : m.VariantOver M m') :
    promotableSlots m = promotableSlots m' := by
  refine map_eq_of_forall₂ (forall₂_filter h.childrenWithIndex ?_) fun _ _ hcd => hcd.1
  rintro ⟨i, c⟩ ⟨-, d⟩ ⟨rfl, hcd⟩
  have hfree : (m.introduced?.all fun v => !c.freeVariables.contains v.name) =
      m'.introduced?.all fun v => !d.freeVariables.contains v.name := by
    have hrel := h.head.introduced?
    rw [introduced?_eq, introduced?_eq]
    unfold Matching.below at hcd
    revert hrel hcd
    generalize m.kind.introduced? = v?
    generalize m'.kind.introduced? = w?
    rintro hcd (⟨-⟩ | -)
    · next v w =>
      -- Free uses of the variable correspond to free uses of its counterpart only.
      have hiff : v.name ∈ c.freeUses [] ↔ w.name ∈ d.freeUses [] := by
        constructor
        · intro hv
          obtain ⟨y, hy, ⟨-, rfl⟩ | ⟨hne, -⟩⟩ := hcd.exists_freeUse hv
          · exact hy
          · exact absurd rfl hne
        · intro hw
          obtain ⟨y, hy, ⟨rfl, -⟩ | ⟨-, hne, -⟩⟩ := hcd.symm.exists_freeUse hw
          · exact hy
          · exact absurd rfl hne
      simp [freeVariables, hiff]
    · rfl
  simp only [h.nonterminal_eq, hcd.nonterminal_eq, hfree]

variable [Scalar K]

theorem sameWeights (h : g.Renames s s' x x') (w : SiteWeights K) :
    Grammar.Renames.SameWeights x x' (siteWeight w) (siteWeight w) := by
  intro p m m' hm hm'
  rw [siteWeight, siteWeight, promotableSlots_eq (h.at_place hm hm').2, h.weight_eq w hm hm']

theorem logProbability_eq (hdist : g.DistinctSignatures) (hplain : g.PlainNames)
    (h : g.Renames s s' x x') (w : SiteWeights K) :
    logProbability w x y = logProbability w x' y := by
  have hsites : ∀ (total : K) (ps : List Place),
      siteLogProbabilities w total x y ps = siteLogProbabilities w total x' y ps := by
    intro total ps
    refine congrArg (List.filterMap · ps) (funext fun p => ?_)
    rcases h.get?_cases p with ⟨hx, hx'⟩ | ⟨m, m', hm, hm'⟩
    · rw [hx, hx']
    · rw [hm, hm', h.siteLogProbabilityOf_eq (sameWeights h w)]
      simp only [promotableSlots_eq (h.at_place hm hm').2, h.alikeAt_eq hdist hplain]
  rw [logProbability, logProbability, h.leastCommonDifference_eq hdist hplain,
    h.siteTotal_eq (sameWeights h w)]
  simp only [hsites]

end Deletion

namespace Insertion

/-- The same rules but for their names can be put around corresponding nodes. -/
theorem forall₂_replicatingRules (h : g.Renames s s' x x') (p : Place) :
    List.Forall₂ Rule.SameUpToName (replicatingRules g x p) (replicatingRules g x' p) := by
  unfold replicatingRules
  rcases h.get?_cases p with ⟨hx, hx'⟩ | ⟨m, m', hm, hm'⟩
  · rw [hx, hx']
    exact .nil
  · rw [hm, hm']
    obtain ⟨hheads, hmm'⟩ := h.at_place hm hm'
    have hal := hheads.aligned h.left.toDerived h.right.toDerived (.nil Eq)
    have hrules : List.Forall₂ Rule.SameUpToName (g.visibleRules m.nonterminal ([] ++ x.variablesAbove p))
        (g.visibleRules m.nonterminal ([] ++ x'.variablesAbove p)) :=
      Grammar.forall₂_visibleRules hal.rules
    dsimp only
    rw [← hmm'.nonterminal_eq]
    refine forall₂_filter hrules fun r r' hr => ?_
    rw [Rule.replicatingSlots, Rule.replicatingSlots, Rule.symbols, Rule.symbols,
      hr.expansion_eq, hr.nonterminal_eq]

variable [Scalar K]

theorem sameWeights (h : g.Renames s s' x x') (w : SiteWeights K) :
    Grammar.Renames.SameWeights x x' (siteWeight g w x) (siteWeight g w x') := by
  intro p m m' hm hm'
  have hlength := (forall₂_replicatingRules h p).length_eq
  have hempty : (replicatingRules g x p).isEmpty = (replicatingRules g x' p).isEmpty := by
    rw [Bool.eq_iff_iff, List.isEmpty_iff_length_eq_zero, List.isEmpty_iff_length_eq_zero, hlength]
  rw [siteWeight, siteWeight, hempty, h.weight_eq w hm hm']

theorem slotLogProbabilities_eq (hdist : g.DistinctSignatures) (hplain : g.PlainNames)
    (h : g.Renames s s' x x') (p : Place) (slots rest : List ℕ) :
    slotLogProbabilities g x y n p slots rest = slotLogProbabilities g x' y n p slots rest := by
  induction rest with
  | nil => rfl
  | cons slot rest ih =>
    rw [slotLogProbabilities, slotLogProbabilities, ih, h.alikeAt_eq hdist hplain]

theorem siteLogProbabilities_eq (hdist : g.DistinctSignatures) (hplain : g.PlainNames)
    (h : g.Renames s s' x x') (w : SiteWeights K) (total : K) (ps : List Place) :
    siteLogProbabilities g w total x y ps = siteLogProbabilities g w total x' y ps := by
  induction ps with
  | nil => rfl
  | cons p ps ih =>
    rw [siteLogProbabilities, siteLogProbabilities, ih,
      h.siteLogProbabilityOf_eq (sameWeights h w), (forall₂_replicatingRules h p).length_eq]
    rcases h.get?_cases p with ⟨hx, hx'⟩ | ⟨m, m', hm, hm'⟩
    · rw [hx, hx']
    · rw [hm, hm']
      cases y.get? p with
      | none => rfl
      | some n =>
        simp only [(h.at_place hm hm').2.nonterminal_eq, slotLogProbabilities_eq hdist hplain h]

theorem logProbability_eq (hdist : g.DistinctSignatures) (hplain : g.PlainNames)
    (h : g.Renames s s' x x') (w : SiteWeights K) :
    logProbability g w x y = logProbability g w x' y := by
  rw [logProbability, logProbability, h.leastCommonDifference_eq hdist hplain,
    h.siteTotal_eq (sameWeights h w)]
  simp only [siteLogProbabilities_eq hdist hplain h]

end Insertion

namespace Copying

/-- Sorted names do not depend on the order that they came in. -/
theorem mergeSort_eq_of_perm {xs ys : List String} (h : xs.Perm ys) :
    xs.mergeSort (fun a b => !decide (b < a)) = ys.mergeSort fun a b => !decide (b < a) := by
  have hle : ∀ a b : String, (!decide (b < a)) = true ↔ a ≤ b := by
    intro a b
    rw [Bool.not_eq_true', decide_eq_false_iff_not, not_lt]
  have htrans : ∀ a b c : String, (!decide (b < a)) = true → (!decide (c < b)) = true →
      (!decide (c < a)) = true := by
    intro a b c hab hbc
    rw [hle] at hab hbc ⊢
    exact hab.trans hbc
  have htotal : ∀ a b : String, ((!decide (b < a)) || !decide (a < b)) = true := by
    intro a b
    rw [Bool.or_eq_true, hle, hle]
    exact le_total a b
  refine List.Perm.eq_of_pairwise (fun a b _ _ hab hba => ?_)
    (List.pairwise_mergeSort htrans htotal xs) (List.pairwise_mergeSort htrans htotal ys)
    ((List.mergeSort_perm xs _).trans (h.trans (List.mergeSort_perm ys _).symm))
  exact le_antisymm ((hle a b).mp hab) ((hle b a).mp hba)

/-- A copy fits exactly where the same nonterminal is expanded and the same names are visible. -/
theorem fits_spotAt_iff (hx : g.Derivable s x) (hm : x.get? p = some m) (hn : x.get? q = some n) :
    (spotAt x p m).fits (spotAt x q n) = true ↔ n.nonterminal = m.nonterminal ∧
      ∀ z, z ∈ (x.variablesAbove p).map (·.name) ↔ z ∈ (x.variablesAbove q).map (·.name) := by
  refine ⟨fits_iff_of_spots, fun ⟨hnt, hnames⟩ => ?_⟩
  have hperm : ((x.variablesAbove q).map (·.name)).Perm ((x.variablesAbove p).map (·.name)) :=
    (List.perm_ext_iff_of_nodup (hx.derived_at hn).wellNamed.nodup
      (hx.derived_at hm).wellNamed.nodup).mpr fun z => (hnames z).symm
  have hsorted := mergeSort_eq_of_perm hperm
  simp only [Spot.fits, spotAt, hnt, hsorted, beq_self_eq_true, Bool.and_self]

/-- The spots are those of corresponding nodes. -/
def SameSpot (x x' : Tree K) (a b : Spot) : Prop :=
  ∃ p m m', x.get? p = some m ∧ x'.get? p = some m' ∧ a = spotAt x p m ∧ b = spotAt x' p m'

theorem forall₂_spots (h : g.Renames s s' x x') :
    List.Forall₂ (SameSpot x x') (spots x) (spots x') := by
  rw [spots_eq, spots_eq, List.forall₂_map_left_iff, List.forall₂_map_right_iff]
  refine (VariantOver.forall₂_subnodes h.variant).imp ?_
  rintro ⟨p, m⟩ ⟨-, m'⟩ ⟨rfl, hm, hm'⟩
  exact ⟨p, m, m', hm, hm', rfl, rfl⟩

theorem SameSpot.place_eq {a b : Spot} (h : SameSpot x x' a b) : a.place = b.place := by
  obtain ⟨p, m, m', -, -, rfl, rfl⟩ := h
  rfl

theorem SameSpot.fits_eq {a b c d : Spot} (hab : SameSpot x x' a b) (hcd : SameSpot x x' c d)
    (h : g.Renames s s' x x') : a.fits c = b.fits d := by
  obtain ⟨p, m, m', hm, hm', rfl, rfl⟩ := hab
  obtain ⟨q, n, n', hn, hn', rfl, rfl⟩ := hcd
  rw [Bool.eq_iff_iff, fits_spotAt_iff h.left hm hn, fits_spotAt_iff h.right hm' hn',
    (h.at_place hm hm').2.nonterminal_eq, (h.at_place hn hn').2.nonterminal_eq]
  refine and_congr_right fun _ => ⟨fun hnames z => ⟨?_, ?_⟩, fun hnames z => ⟨?_, ?_⟩⟩
  · exact VariantOver.names_above_subset h.variant h.variant.symm h.left.toDerived hm hn
      (fun z => (hnames z).mp) z
  · exact VariantOver.names_above_subset h.variant h.variant.symm h.left.toDerived hn hm
      (fun z => (hnames z).mpr) z
  · exact VariantOver.names_above_subset h.variant.symm h.variant h.right.toDerived hm' hn'
      (fun z => (hnames z).mp) z
  · exact VariantOver.names_above_subset h.variant.symm h.variant h.right.toDerived hn' hm'
      (fun z => (hnames z).mpr) z

variable [Scalar K]

theorem pairLogProbabilities_congr (hdist : g.DistinctSignatures) (hplain : g.PlainNames)
    (h : g.Renames s s' x x') (w : SiteWeights K) :
    pairLogProbabilities w x y = pairLogProbabilities w x' y := by
  have hspots : List.Forall₂ (SameSpot x x') (spots x) (spots x') := forall₂_spots h
  have hedits : List.Forall₂ (fun a b => SameSpot x x' a.1 b.1 ∧ a.2 = b.2)
      (((spots x).filter fun z => mayAccount (x.leastCommonDifference y) z.place).map fun z =>
        (z, y.canonicalAt z.place))
      (((spots x').filter fun z => mayAccount (x'.leastCommonDifference y) z.place).map fun z =>
        (z, y.canonicalAt z.place)) := by
    rw [List.forall₂_map_left_iff, List.forall₂_map_right_iff,
      h.leastCommonDifference_eq hdist hplain]
    refine (forall₂_filter hspots fun a b hab => by rw [hab.place_eq]).imp fun a b hab => ?_
    exact ⟨hab, by rw [hab.place_eq]⟩
  unfold pairLogProbabilities
  rw [List.flatMap_def, List.flatMap_def]
  refine congrArg List.flatten (map_eq_of_forall₂ hspots fun a b hab => ?_)
  have hcount : (spots x).countP a.fits = (spots x').countP b.fits := by
    rw [List.countP_eq_length_filter, List.countP_eq_length_filter]
    exact (forall₂_filter hspots fun c d hcd => hab.fits_eq hcd h).length_eq
  refine map_eq_of_forall₂ (forall₂_filter hedits fun c d hcd => ?_) fun _ _ _ => ?_
  · rw [hab.fits_eq hcd.1 h, hab.place_eq, hcd.2, h.canonicalAt_eq hdist hplain]
  · rw [hcount, hab.place_eq, h.siteTotal_eq (h.sameWeights w),
      h.siteLogProbabilityOf_eq (h.sameWeights w)]

theorem logProbability_eq (hdist : g.DistinctSignatures) (hplain : g.PlainNames)
    (h : g.Renames s s' x x') (w : SiteWeights K) :
    logProbability w x y = logProbability w x' y := by
  rw [logProbability, logProbability, pairLogProbabilities_congr hdist hplain h]

end Copying

namespace Kernel

variable [Scalar K]

mutual

/-- The score of a kernel does not depend on the names of the variables of the first tree. -/
theorem logProbability_congr (hdist : g.DistinctSignatures) (hplain : g.PlainNames)
    (h : g.Renames s s' x x') (w : SiteWeights K) :
    (k : Kernel K) → k.logProbability g w x y = k.logProbability g w x' y
  | .regeneration => Regeneration.logProbability_eq hdist hplain h w
  | .insert => Insertion.logProbability_eq hdist hplain h w
  | .delete => congrArg pure (Deletion.logProbability_eq hdist hplain h w)
  | .copy => congrArg pure (Copying.logProbability_eq hdist hplain h w)
  | .mixture components => by
    rw [logProbability, logProbability,
      componentLogProbabilities_congr hdist hplain h w _ components]

theorem componentLogProbabilities_congr (hdist : g.DistinctSignatures) (hplain : g.PlainNames)
    (h : g.Renames s s' x x') (w : SiteWeights K) (total : K) :
    (components : List (K × Kernel K)) → componentLogProbabilities g w x y total components =
      componentLogProbabilities g w x' y total components
  | [] => rfl
  | (weight, k) :: components => by
    rw [componentLogProbabilities, componentLogProbabilities,
      logProbability_congr hdist hplain h w k,
      componentLogProbabilities_congr hdist hplain h w total components]

end

end Kernel

end ScopedGrammar
