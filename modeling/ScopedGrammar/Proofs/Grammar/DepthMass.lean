import Mathlib.Algebra.Order.BigOperators.GroupWithZero.List
import ScopedGrammar.Proofs.Grammar.Enumeration
import ScopedGrammar.Proofs.Grammar.Guarantees
import ScopedGrammar.Proofs.Random.Totals

/-!
# The mass within a depth

The mass of the trees up to a depth follows from the rules alone. A rule is taken with its share of
the visible weight, and its nonterminal arguments are filled in independently of each other, one
level further down. This is how probable it is that expansion succeeds within the depth. It comes to
exactly one of the trees listed up to the depth then, each with the probability of its own mass, so
the masses of these add up to the same. The names of the variables in scope do not matter.
-/
namespace ScopedGrammar.Grammar

open Exact

section Recurrence

/-- The share of a rule in the weight that is visible for a nonterminal. -/
noncomputable def share (g : Grammar Exact) (S : Scope Exact) (nt : String) (r : Rule Exact) : ℝ :=
  r.weight.toReal / (g.visibleWeight nt S).toReal

/-- The nonterminals among the arguments of a rule. -/
def slots {K : Type} (g : Grammar K) (r : Rule K) : List String := r.symbols.filter g.isNonterminal

/-- The scope with the variable that a rule introduces, under some name. -/
def scopeUnder {K : Type} (g : Grammar K) (S : Scope K) (r : Rule K) : Scope K :=
  S.below (g.kindOf r .initial).1

/-- The mass of a nonterminal within a depth. A rule with nonterminal arguments needs a level for
them. -/
noncomputable def massWithin (g : Grammar Exact) : ℕ → Scope Exact → String → ℝ
  | 0, S, nt => ((g.visibleRules nt S).map fun r =>
      g.share S nt r * if g.slots r = [] then 1 else 0).sum
  | d + 1, S, nt => ((g.visibleRules nt S).map fun r =>
      g.share S nt r * ((g.slots r).map (g.massWithin d (g.scopeUnder S r))).prod).sum

/-- The mass of a nonterminal if its arguments have the given masses. -/
noncomputable def massOver (g : Grammar Exact) (below : Scope Exact → String → ℝ) (S : Scope Exact)
    (nt : String) : ℝ :=
  ((g.visibleRules nt S).map fun r =>
    g.share S nt r * ((g.slots r).map (below (g.scopeUnder S r))).prod).sum

variable {g : Grammar Exact} {S T : Scope Exact} {nt : String} {d : ℕ} {s : NameSupply}
  {below : Scope Exact → String → ℝ} {r r' : Rule Exact}

theorem massWithin_zero : g.massWithin 0 = g.massOver fun _ _ => 0 := by
  funext S nt
  refine congrArg List.sum (List.map_congr_left fun r _ => ?_)
  cases g.slots r <;> simp

theorem massWithin_succ (d : ℕ) : g.massWithin (d + 1) = g.massOver (g.massWithin d) := rfl

/-- The masses of arguments do not depend on what the variables are called. -/
def NameFree (below : Scope Exact → String → ℝ) : Prop :=
  ∀ S T, List.Forall₂ Rule.SameUpToName S T → below S = below T

/-- Below nodes that rules of one kind make the variables are the same again, up to names. -/
theorem forall₂_below {kind kind' : NodeKind Exact} (h : List.Forall₂ Rule.SameUpToName S T)
    (hkind : r.kind = r'.kind) (hmakes : g.Makes r kind) (hmakes' : g.Makes r' kind') :
    List.Forall₂ Rule.SameUpToName (S.below kind) (T.below kind') := by
  unfold Makes at hmakes hmakes'
  rw [← hkind] at hmakes'
  cases hr : r.kind with
  | plain =>
    simp only [hr] at hmakes hmakes'
    subst hmakes hmakes'
    exact h
  | variableUse stem =>
    simp only [hr] at hmakes hmakes'
    subst hmakes hmakes'
    exact h
  | binder spec =>
    simp only [hr] at hmakes hmakes'
    obtain ⟨x, rfl⟩ := hmakes
    obtain ⟨y, rfl⟩ := hmakes'
    exact List.rel_append h (.cons rfl .nil)

theorem NameFree.massOver (h : NameFree below) : NameFree (g.massOver below) := by
  intro S T hST
  funext nt
  refine congrArg List.sum (map_eq_of_forall₂ (forall₂_visibleRules hST) fun r r' hr => ?_)
  have hslots : g.slots r = g.slots r' := by
    rw [slots, slots, Rule.symbols, Rule.symbols, hr.expansion_eq]
  have hscope : below (g.scopeUnder S r) = below (g.scopeUnder T r') :=
    h _ _ (forall₂_below hST hr.kind_eq (kindOf_spec g r _).1 (kindOf_spec g r' _).1)
  rw [share, share, hr.weight_eq, visibleWeight_eq hST, hslots, hscope]

theorem nameFree_massWithin (d : ℕ) : NameFree (g.massWithin d) := by
  induction d with
  | zero => exact massWithin_zero (g := g) ▸ NameFree.massOver fun _ _ _ => rfl
  | succ d ih => exact ih.massOver

theorem NameFree.scopeUnder (h : NameFree below) (S : Scope Exact) (r : Rule Exact)
    (s : NameSupply) : below (g.scopeUnder S r) = below (S.below (g.kindOf r s).1) :=
  h _ _ (forall₂_below (List.forall₂_same.mpr fun v _ => .refl v) rfl (kindOf_spec g r _).1
    (kindOf_spec g r s).1)

end Recurrence

section Expansion

variable {g : Grammar Exact} {S : Scope Exact} {nt : String} {d levels : ℕ} {s : NameSupply}
  {below : Scope Exact → String → ℝ} {r : Rule Exact}

/-- Filling arguments in succeeds if all of them can be filled in, one independently of the other.
-/
theorem prob_expandArgs_success
    (ih : ∀ {S : Scope Exact} {nt : String} {s : NameSupply}, Drawable S s →
      (g.expandTraced levels S nt).prob s (fun _ => True) = below S nt)
    (hS : Drawable S s) (symbols : List String) :
    (expandTraced.expandArgsTraced g (g.expandTraced levels) S symbols).prob s (fun _ => True) =
      ((symbols.filter g.isNonterminal).map (below S)).prod := by
  induction symbols generalizing s with
  | nil => simp [expandTraced.expandArgsTraced]
  | cons symbol symbols ihs =>
    rw [expandTraced.expandArgsTraced]
    split_ifs with hnt
    · have hrest : ∀ x s', (g.expandTraced levels S symbol).Yields s (.ok x) s' →
          (expandTraced.expandArgsTraced g (g.expandTraced levels) S symbols >>= fun y =>
            pure (.subtree x.1 :: y.1, x.2 ++ y.2)).prob s' (fun _ => True) =
              ((symbols.filter g.isNonterminal).map (below S)).prod := fun x s' hx => by
        rw [Sampler.prob_bind_pure, ihs (hS.mono (expanded_of_yields hx).issued_le)]
      rw [Sampler.prob_bind, Sampler.mean_congr hrest, Sampler.mean_const, ih hS,
        List.filter_cons_of_pos hnt, List.map_cons, List.prod_cons]
    · rw [Sampler.prob_bind_pure, ihs hS, List.filter_cons_of_neg hnt]

theorem prob_makeNode_success (hfree : NameFree below) (hpos : g.PositiveWeights)
    (ih : ∀ {S : Scope Exact} {nt : String} {s : NameSupply}, Drawable S s →
      (g.expandTraced levels S nt).prob s (fun _ => True) = below S nt)
    (hS : Drawable S s) (hr : r ∈ g.visibleRules nt S) :
    (g.makeNode (expandTraced.expandArgsTraced g (g.expandTraced levels)) S r).prob s
      (fun _ => True) = ((g.slots r).map (below (g.scopeUnder S r))).prod := by
  rw [makeNode, Sampler.prob_bind, Sampler.mean_ofNaming, slots, Rule.symbols]
  cases r.expansion with
  | none => simp
  | some symbols =>
    dsimp only
    rw [Sampler.prob_bind_pure, prob_expandArgs_success ih (hS.below hpos hr),
      hfree.scopeUnder S r s, Option.getD_some]

/-- With one level more, expansion succeeds with the mass over that of the levels below. -/
theorem prob_expandTraced_succ (hfree : NameFree below) (hpos : g.PositiveWeights)
    (ih : ∀ {S : Scope Exact} {nt : String} {s : NameSupply}, Drawable S s →
      (g.expandTraced levels S nt).prob s (fun _ => True) = below S nt)
    (hS : Drawable S s) :
    (g.expandTraced (levels + 1) S nt).prob s (fun _ => True) = g.massOver below S nt := by
  rw [expandTraced_succ]
  by_cases hne : g.visibleRules nt S = []
  · rw [massOver, hne, List.map_nil, List.sum_nil]
    refine Sampler.prob_eq_zero fun x s' hx _ => ?_
    obtain ⟨r, s₁, hr, -⟩ := (Sampler.yields_bind_ok ..).mp hx
    simpa [hne] using (of_yields_sampleRule hr).1
  · rw [Sampler.prob_bind, mean_sampleRule hpos hS.positive hne]
    refine congrArg List.sum (List.map_congr_left fun r hr => ?_)
    rw [prob_makeNode_success hfree hpos ih hS hr, share]

/-- Expansion succeeds within a depth with the mass of the nonterminal. -/
theorem prob_expandTraced_success (hpos : g.PositiveWeights) (hS : Drawable S s) :
    (g.expandTraced (d + 1) S nt).prob s (fun _ => True) = g.massWithin d S nt := by
  induction d generalizing S nt s with
  | zero =>
    rw [massWithin_zero]
    exact prob_expandTraced_succ (fun _ _ _ => rfl) hpos (fun _ => Sampler.prob_throw ..) hS
  | succ d ih =>
    rw [massWithin_succ]
    exact prob_expandTraced_succ (nameFree_massWithin d) hpos ih hS

theorem massWithin_nonneg (hpos : g.PositiveWeights) (hS : Drawable S s) :
    0 ≤ g.massWithin d S nt := by
  rw [← prob_expandTraced_success hpos hS]
  exact Sampler.prob_nonneg ..

theorem massOver_le {below' : Scope Exact → String → ℝ} (hpos : g.PositiveWeights)
    (hS : Drawable S s) (h : ∀ r ∈ g.visibleRules nt S, ∀ slot,
      0 ≤ below (g.scopeUnder S r) slot ∧
        below (g.scopeUnder S r) slot ≤ below' (g.scopeUnder S r) slot) :
    g.massOver below S nt ≤ g.massOver below' S nt := by
  refine List.sum_le_sum fun r hr => mul_le_mul_of_nonneg_left ?_ ?_
  · exact List.prod_map_le_prod_map₀ _ _ (fun slot _ => (h r hr slot).1) fun slot _ => (h r hr slot).2
  · exact div_nonneg (hpos.visible hS.positive r hr).toReal_pos.le
      (visibleWeight_pos hpos hS.positive hr).le

/-- A level more takes no mass away. -/
theorem massWithin_le_succ (hpos : g.PositiveWeights) (hS : Drawable S s) :
    g.massWithin d S nt ≤ g.massWithin (d + 1) S nt := by
  induction d generalizing S nt s with
  | zero =>
    have hzero : g.massWithin 0 S nt = g.massOver (fun _ _ => 0) S nt := by rw [massWithin_zero]
    rw [massWithin_succ, hzero]
    refine massOver_le hpos hS fun r hr slot => ⟨le_rfl, ?_⟩
    rw [(nameFree_massWithin 0).scopeUnder S r s]
    exact massWithin_nonneg hpos (hS.below hpos hr)
  | succ d ih =>
    rw [massWithin_succ, massWithin_succ]
    refine massOver_le hpos hS fun r hr slot => ?_
    rw [(nameFree_massWithin d).scopeUnder S r s, (nameFree_massWithin (d + 1)).scopeUnder S r s]
    exact ⟨massWithin_nonneg hpos (hS.below hpos hr), ih (hS.below hpos hr)⟩

theorem massWithin_le_one (hpos : g.PositiveWeights) (hS : Drawable S s) :
    g.massWithin d S nt ≤ 1 := by
  rw [← prob_expandTraced_success hpos hS]
  exact Sampler.prob_le_one ..

end Expansion

section Listings

variable {g : Grammar Exact} {nt : String} {d : ℕ} {s : NameSupply} {ts : List (Tree Exact)}

theorem exists_derived_of_listed (h : (g.list d nt s).Reads ts) {t : Tree Exact} (ht : t ∈ ts) :
    ∃ names, g.Derived names [] t := by
  obtain ⟨depth, s', ts', h, ht⟩ := exists_reads_listAtDepth h ht
  obtain ⟨names, hlisted⟩ := exists_listed h ht
  exact ⟨names, hlisted.derived .nil⟩

/-- Expansion within a depth comes to a variant of a listed tree with the mass of this tree. -/
theorem prob_expandTraced_listed (hg : g.Proper) (h : (g.list d nt s).Reads ts) {t : Tree Exact}
    (ht : t ∈ ts) : (g.expandTraced (d + 1) [] nt).prob s (fun x => x.1.Variant t) =
      g.treeMass [] t := by
  obtain ⟨hall, -, -⟩ := of_reads_ascending hg.distinct h
  obtain ⟨hclosed, -, -, hdepth⟩ := hall t ht
  obtain ⟨names, hderived⟩ := exists_derived_of_listed h ht
  have hprob : (g.expandTraced (d + 1) [] t.nonterminal).prob s (fun x => x.1.VariantOver Eq t) =
      g.chance (d + 1) [] t := prob_expandTraced hg .nil (.nil Eq) ⟨hderived, by simp⟩
  rw [chance, if_pos ⟨by omega, hclosed.complete⟩, hclosed.nonterminal_eq] at hprob
  exact hprob

/-- Expansion within a depth comes to a variant of exactly one listed tree. -/
theorem existsUnique_listed (hdist : g.DistinctSignatures) (h : (g.list d nt s).Reads ts)
    {t : Tree Exact} {rules : List (Rule Exact)} {s' : NameSupply}
    (ht : (g.expandTraced (d + 1) [] nt).Yields s (.ok (t, rules)) s') :
    ∃! i : Fin ts.length, t.Variant ts[i] := by
  classical
  obtain ⟨-, hone, -⟩ := of_reads_ascending hdist h
  have hexp := expanded_of_yields ht
  have hderived := hexp.derived .nil
  have hclosed : g.ClosedTree nt t :=
    ⟨hexp.nonterminal_eq, hexp.complete, hderived.derives, hderived.fresh.nodup⟩
  have hdepth := hexp.depth_lt
  obtain ⟨i, ⟨u, hu, hvar⟩, hunique⟩ : ListsOnce ts t :=
    listsOnce_of_countP (by rw [hone t hclosed, if_pos (by omega)])
  obtain ⟨hi, rfl⟩ := List.getElem?_eq_some_iff.mp hu
  refine ⟨⟨i, hi⟩, hvar.symm, fun j hj => Fin.ext ?_⟩
  exact hunique j ⟨ts[j], List.getElem?_eq_getElem j.isLt, hj.symm⟩

/-- The masses of the listed trees add up to the mass within the depth. -/
theorem sum_treeMass_listed (hg : g.Proper) (h : (g.list d nt s).Reads ts) :
    (ts.map (g.treeMass [])).sum = g.massWithin d [] nt := by
  have hS : Drawable ([] : Scope Exact) s := ⟨.nil, by simp⟩
  have htotal := Sampler.hasSum_prob (x := g.expandTraced (d + 1) [] nt) (s := s)
    (E := fun (i : Fin ts.length) x => x.1.Variant ts[i]) fun x s' hx =>
      existsUnique_listed hg.distinct h hx
  rw [← prob_expandTraced_success hg.positive hS, htotal.unique (hasSum_fintype _),
    ← Fin.sum_univ_fun_getElem ts (g.treeMass [])]
  exact Finset.sum_congr rfl fun i _ => (prob_expandTraced_listed hg h (List.getElem_mem _)).symm

/-- Every listed tree has a positive mass, of which its score is the logarithm. -/
theorem logProbability_listed (hg : g.Proper) (h : (g.list d nt s).Reads ts) :
    ∀ t ∈ ts, 0 < g.treeMass [] t ∧
      g.logProbability t = .ok (real (Real.log (g.treeMass [] t))) := by
  intro t ht
  obtain ⟨names, hderived⟩ := exists_derived_of_listed h ht
  exact Weighted.logProbabilityIn_eq ⟨hderived, by simp⟩ hg

/-- Enumerated mass follows the recurrence of derivations. Whatever names are taken while they are
listed, the trees up to a depth have scores whose exponentials add up to the mass that the rules
give the nonterminal within the depth. The mass only grows with the depth, and is never more than
`1`. -/
theorem listed_mass_eq_massWithin (hdist : g.DistinctSignatures) (hres : g.NoReservedNames)
    (hpos : g.PositiveWeights) (nt : String) (s : NameSupply) :
    (∀ d ts, (g.list d nt s).Reads ts → ∃ lps : List ℝ,
      ts.map g.logProbability = lps.map (fun l => .ok (real l)) ∧
        (lps.map Real.exp).sum = g.massWithin d [] nt) ∧
      (Monotone fun d => g.massWithin d [] nt) ∧ ∀ d, g.massWithin d [] nt ≤ 1 := by
  have hg : g.Proper := ⟨hdist, hres, hpos⟩
  have hS : Drawable ([] : Scope Exact) s := ⟨.nil, by simp⟩
  refine ⟨fun d ts h => ⟨ts.map fun t => Real.log (g.treeMass [] t), ?_, ?_⟩,
    monotone_nat_of_le_succ fun d => massWithin_le_succ hpos hS, fun d => massWithin_le_one hpos hS⟩
  · rw [List.map_map]
    exact List.map_congr_left fun t ht => (logProbability_listed hg h t ht).2
  · rw [List.map_map, ← sum_treeMass_listed hg h]
    exact congrArg List.sum (List.map_congr_left fun t ht =>
      Real.exp_log (logProbability_listed hg h t ht).1)

/-- Within depth one there are the constant, the functions that return it or their argument, and the
constant applied to itself. -/
theorem massWithin_one_terms : (terms : Grammar Exact).massWithin 1 [] "T" = 29 / 54 := by
  let v : Rule Exact := ⟨"T", NameSupply.nameOf 0, none, 1, .variableUse "y"⟩
  have hone : (1 : Exact).toReal = 1 := rfl
  have hv : ∀ u ∈ [v], u.weight.Positive := by simpa [v] using ⟨1, one_pos, rfl⟩
  have hrules : terms.visibleRules "T" ([] : Scope Exact) = terms.table.allRules := rfl
  have hrules' : terms.visibleRules "T" [v] = terms.table.allRules ++ [v] := rfl
  have hweight : (terms.visibleWeight "T" ([] : Scope Exact)).toReal = 3 := by
    rw [visibleWeight_eq_real positiveWeights_terms (by simp), hrules, allRules_terms, toReal_real]
    norm_num [hone]
  have hweight' : (terms.visibleWeight "T" [v]).toReal = 4 := by
    rw [visibleWeight_eq_real positiveWeights_terms hv, hrules', allRules_terms, toReal_real]
    norm_num [v, hone]
  have hleaves : (terms : Grammar Exact).massWithin 0 [] "T" = 1 / 3 := by
    rw [massWithin, hrules, allRules_terms]
    norm_num [share, slots, Rule.symbols, isNonterminal_terms, hweight, hone]
  have hbodies : (terms : Grammar Exact).massWithin 0 [v] "T" = 1 / 2 := by
    rw [massWithin, hrules', allRules_terms]
    norm_num [share, slots, Rule.symbols, isNonterminal_terms, hweight', hone, v]
  have hfn : (terms : Grammar Exact).scopeUnder []
      ⟨"T", "fn", some ["T"], 1, .binder ⟨"T", none, "y", none⟩⟩ = [v] := rfl
  have happ : (terms : Grammar Exact).scopeUnder [] ⟨"T", "app", some ["T", "T"], 1, .plain⟩ = [] :=
    rfl
  rw [massWithin, hrules, allRules_terms]
  norm_num [share, slots, Rule.symbols, isNonterminal_terms, hweight, hone, hfn, happ, hleaves,
    hbodies]

/-- The terms listed up to depth one have the mass that the rules give them. -/
theorem listed_mass_eq_massWithin_terms :
    let g : Grammar Exact := terms
    g.DistinctSignatures ∧ g.NoReservedNames ∧ g.PositiveWeights ∧
      ∃ lps : List ℝ, (g.list 1 "T" .initial).toList.map g.logProbability =
        lps.map (fun l => .ok (real l)) ∧ (lps.map Real.exp).sum = 29 / 54 := by
  intro g
  obtain ⟨hlisted, -, -⟩ := listed_mass_eq_massWithin (g := g) distinctSignatures_terms
    noReservedNames_terms positiveWeights_terms "T" .initial
  obtain ⟨lps, hlps, hsum⟩ := hlisted 1 _ (Listing.reads_toList _)
  exact ⟨distinctSignatures_terms, noReservedNames_terms, positiveWeights_terms, lps, hlps,
    hsum.trans massWithin_one_terms⟩

end Listings

end ScopedGrammar.Grammar
