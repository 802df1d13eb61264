import ScopedGrammar.Proofs.Move.Around

/-!
# Insertion

The score of insertion rates the probability that it turns one tree into a variant of another. At a
place that may account for the differences only the counterpart of the rule of the second tree's
node makes a corresponding node, and only at the slots that hold what the first tree has there.
-/
namespace ScopedGrammar.Insertion

open Exact ScopedGrammar.Tree

section Score

variable {K : Type} {g : Grammar K} {x y m n : Tree K} {p : Place} {r q : Rule K}

theorem nonterminal_of_mem_replicatingRules (hm : x.get? p = some m)
    (hq : q ∈ replicatingRules g x p) : q.nonterminal = m.nonterminal :=
  Grammar.nonterminal_of_mem_visibleRules ((mem_replicatingRules hm).mp hq).1

variable [Scalar K] {w : SiteWeights K} {total : K} {places : List Place} {lps slotLps : List K}

theorem siteLogProbabilities_skip (h : ∀ m n, x.get? p = some m → y.get? p = some n →
    m.nonterminal ≠ n.nonterminal) : siteLogProbabilities g w total x y (p :: places) =
      siteLogProbabilities g w total x y places := by
  cases hm : x.get? p with
  | none => simp only [siteLogProbabilities, hm]
  | some m =>
    cases hn : y.get? p with
    | none => simp only [siteLogProbabilities, hm, hn]
    | some n => simp [siteLogProbabilities, hm, hn, h m n hm hn]

theorem siteLogProbabilities_cons (hm : x.get? p = some m) (hn : y.get? p = some n)
    (hnt : m.nonterminal = n.nonterminal) (hrule : g.ruleForNode (y.variablesAbove p) n = .ok r)
    (hslots : slotLogProbabilities g x y n p r.replicatingSlots r.replicatingSlots = .ok slotLps)
    (hlps : siteLogProbabilities g w total x y places = .ok lps) :
    siteLogProbabilities g w total x y (p :: places) =
      if x.siteLogProbabilityOf total (siteWeight g w x) p == Scalar.negInf then .ok lps
      else .ok ((x.siteLogProbabilityOf total (siteWeight g w x) p -
        Scalar.safeLog (Scalar.ofNat (replicatingRules g x p).length) +
          Scalar.logSumExp slotLps) :: lps) := by
  have htype : (m.nonterminal != n.nonterminal) = false := by simp [hnt]
  have hrule' : g.ruleForNode (Scope.above y p) n = .ok r := hrule
  simp only [siteLogProbabilities, hm, hn, hlps, hrule', htype, Bool.false_or]
  change (if _ then _ else do
    let slotLps ← slotLogProbabilities g x y n p r.replicatingSlots r.replicatingSlots
    _) = _
  rw [hslots]
  rfl

theorem logProbability_of_none (h : x.leastCommonDifference y = none) :
    logProbability g w x y = .ok Scalar.negInf := by
  rw [logProbability, h]
  rfl

theorem logProbability_of_some (h : x.leastCommonDifference y = some p)
    (hlps : siteLogProbabilities g w (x.siteTotal (siteWeight g w x)) x y p.upTo = .ok lps) :
    logProbability g w x y = .ok (Scalar.logSumExp lps) := by
  rw [logProbability, h]
  change (siteLogProbabilities g w _ x y p.upTo >>= fun lps => pure (Scalar.logSumExp lps)) = _
  rw [hlps]
  rfl

end Score

variable {g : Grammar Exact} {w : SiteWeights Exact} {s names : NameSupply}
  {x y m n : Tree Exact} {p : Place} {r r' q : Rule Exact} {slot : ℕ}

theorem weight_nonneg (hw : w.Nonneg) (q : Place) (k : Tree Exact) :
    (siteWeight g w x q k).Nonneg := by
  unfold siteWeight
  split_ifs
  · exact ⟨0, le_rfl, zero_eq⟩
  · exact hw.weight k

/-- The probability that inserting a node at a place comes to a variant of a tree. -/
noncomputable def probAt (g : Grammar Exact) (s : NameSupply) (x y : Tree Exact) (p : Place) : ℝ :=
  match x.get? p with
  | some m => (atSite g x p m).prob s fun t => t.Variant y
  | none => 0

section Slots

variable {T : Scope Exact}

/-- The scores of generated arguments are the logarithms of their masses. -/
theorem siblingsLogProbability_eq (slot : ℕ) {k : ℕ} {as : List (Arg Exact)} {a : ℝ} (ha : 0 < a)
    (h : ∀ j c, as[j]? = some (.subtree c) → 0 < g.treeMass T c ∧
      g.logProbabilityAt y (p ++ [k + j]) = .ok (real (Real.log (g.treeMass T c)))) :
    0 < a * ((siblings slot k as).map (g.argMass T)).prod ∧
      siblingsLogProbability g y p slot (real (Real.log a)) (subtreesFrom k as) =
        .ok (real (Real.log (a * ((siblings slot k as).map (g.argMass T)).prod))) := by
  induction as generalizing k a with
  | nil => simpa [siblings, subtreesFrom, siblingsLogProbability] using ⟨ha, rfl⟩
  | cons b as ih =>
    have hrest : ∀ j c, as[j]? = some (.subtree c) → 0 < g.treeMass T c ∧
        g.logProbabilityAt y (p ++ [k + 1 + j]) = .ok (real (Real.log (g.treeMass T c))) := by
      intro j c hj
      have hnext := h (j + 1) c (by simpa using hj)
      rwa [← Nat.add_assoc, Nat.add_right_comm] at hnext
    by_cases hk : k = slot
    · subst hk
      rw [siblings_cons_of_eq]
      cases b with
      | subtree c =>
        rw [subtreesFrom, siblingsLogProbability, if_pos (beq_self_eq_true k)]
        exact ih ha hrest
      | terminal z =>
        rw [subtreesFrom]
        exact ih ha hrest
    · rw [siblings_cons_of_ne hk, List.map_cons, List.prod_cons, ← mul_assoc]
      cases b with
      | subtree c =>
        obtain ⟨hpos, hscore⟩ := h 0 c rfl
        rw [Nat.add_zero] at hscore
        have hk' : ¬ (k == slot) = true := by simpa using hk
        rw [subtreesFrom, siblingsLogProbability, if_neg hk', hscore, Grammar.argMass]
        have hnext := ih (mul_pos ha hpos) hrest
        refine ⟨hnext.1, ?_⟩
        rw [← hnext.2, Real.log_mul ha.ne' hpos.ne', ← real_add]
        rfl
      | terminal z =>
        rw [subtreesFrom, Grammar.argMass, mul_one]
        exact ih ha hrest

theorem argChance_eq_argMass (hreach : g.Complete y ∧ y.depth ≤ g.maxDepth) (hn : y.get? p = some n)
    {a : Arg Exact} (ha : a ∈ n.args) : g.argChance (g.maxDepth + 1) T a = g.argMass T a := by
  obtain ⟨hcomplete, hdepth⟩ := hreach
  obtain ⟨hfilled, hargs⟩ := hcomplete.at_place hn
  have hshallow := depth_lt_succ_iff.mp (Nat.lt_succ_self n.depth)
  have hdeep := depth_le_of_get? hn
  refine Grammar.argChance_eq (hfilled a ha) fun c hc => ?_
  have := hshallow c (hc ▸ ha)
  exact ⟨by omega, hargs c (hc ▸ ha)⟩

/-- The score of a slot rates the probability of generating what stands beside it, after the choice
of the slot. -/
theorem rates_siblings (hg : g.Proper) (hy : g.Derivable names y) (hn : y.get? p = some n)
    (slot : ℕ) {count : ℕ} (hcount : 0 < count) : ∃ lp,
      siblingsLogProbability g y p slot (-Scalar.log (Scalar.ofNat count)) n.childrenWithIndex = .ok lp ∧
        Rates (g.Complete y ∧ y.depth ≤ g.maxDepth) lp ((count : ℝ)⁻¹ *
          ((siblings slot 0 n.args).map
            (g.argChance (g.maxDepth + 1) (Scope.below (y.variablesAbove p) n.kind))).prod) := by
  have hny := hy.weighted_at hg.positive hn
  have hchild : ∀ c, .subtree c ∈ n.args →
      g.Weighted names (Scope.below (y.variablesAbove p) n.kind) c :=
    fun c hc => hny.child hg.positive hc
  have hcount' : (0 : ℝ) < count := by exact_mod_cast hcount
  have hfirst : -Scalar.log (Scalar.ofNat count : Exact) = real (Real.log (count : ℝ)⁻¹) := by
    rw [ofNat_eq, log_real hcount', neg_real, Real.log_inv]
  have hplace : ∀ j c, n.args[j]? = some (.subtree c) →
      0 < g.treeMass (Scope.below (y.variablesAbove p) n.kind) c ∧
        g.logProbabilityAt y (p ++ [0 + j]) =
          .ok (real (Real.log (g.treeMass (Scope.below (y.variablesAbove p) n.kind) c))) := by
    intro j c hj
    have hc := child?_eq_some.mpr hj
    obtain ⟨hmass, hscore⟩ := (hchild c (List.mem_of_getElem? hj)).logProbabilityIn_eq hg
    have hget : y.get? (p ++ [0 + j]) = some c := by simp [get?_append, hn, hc]
    have habove : y.variablesAbove (p ++ [0 + j]) = Scope.below (y.variablesAbove p) n.kind := by
      rw [variablesAbove_append hn, Nat.zero_add, variablesAbove_cons hc, variablesAbove_nil,
        List.append_nil, Scope.below_kind]
    refine ⟨hmass, ?_⟩
    rw [Grammar.logProbabilityAt, Grammar.subtreeAt, hget, Scope.above, habove]
    exact hscore
  obtain ⟨hmass, hscore⟩ := siblingsLogProbability_eq slot (inv_pos.mpr hcount') hplace
  rw [hfirst]
  refine ⟨_, hscore, _, hmass.le, (logOf_pos hmass).symm, ?_, fun hreach => ?_⟩
  · have hle : ∀ a ∈ siblings slot 0 n.args,
        0 ≤ g.argChance (g.maxDepth + 1) (Scope.below (y.variablesAbove p) n.kind) a ∧
          g.argChance (g.maxDepth + 1) (Scope.below (y.variablesAbove p) n.kind) a ≤
            g.argMass (Scope.below (y.variablesAbove p) n.kind) a := by
      refine fun a ha => Grammar.argChance_le fun c hc => ?_
      have hmem := mem_of_mem_siblings (hc ▸ ha)
      exact ((hchild c hmem).logProbabilityIn_eq hg).1
    refine mul_le_mul_of_nonneg_left ?_ (inv_pos.mpr hcount').le
    exact List.prod_map_le_prod_map₀ _ _ (fun a ha => (hle a ha).1) fun a ha => (hle a ha).2
  · refine congrArg _ (congrArg List.prod (List.map_congr_left fun a ha => ?_))
    exact argChance_eq_argMass hreach hn (mem_of_mem_siblings ha)

/-- The scores of the slots rate what each of them adds, where only slots that hold what the first
tree has at the place add anything. -/
theorem ratesSum_slots {exact : Prop} {slots rest : List ℕ} {v : ℕ → ℝ}
    (hscore : ∀ slot ∈ rest, x.alikeAt p y (p ++ [slot]) = true → ∃ lp,
      siblingsLogProbability g y p slot (-Scalar.log (Scalar.ofNat slots.length))
        n.childrenWithIndex = .ok lp ∧ Rates exact lp (v slot))
    (hzero : ∀ slot ∈ rest, ¬ x.alikeAt p y (p ++ [slot]) = true → v slot = 0) :
    ∃ lps, slotLogProbabilities g x y n p slots rest = .ok lps ∧
      RatesSum exact lps (rest.map v).sum := by
  induction rest with
  | nil => exact ⟨[], rfl, ratesSum_nil⟩
  | cons slot rest ih =>
    obtain ⟨lps, hlps, hrates⟩ := ih (fun k hk => hscore k (List.mem_cons_of_mem slot hk))
      fun k hk => hzero k (List.mem_cons_of_mem slot hk)
    rw [slotLogProbabilities, List.map_cons, List.sum_cons]
    split_ifs with halike
    · obtain ⟨lp, hlp, hslot⟩ := hscore slot List.mem_cons_self halike
      refine ⟨lp :: lps, ?_, hrates.cons hslot⟩
      rw [hlp, hlps]
      rfl
    · exact ⟨lps, hlps, hrates.skip (hzero slot List.mem_cons_self halike)⟩

/-- The probability that a node made by a rule comes to a variant of a tree, averaged over the slots
of the rule. -/
noncomputable def ruleProb (g : Grammar Exact) (s : NameSupply) (x y m : Tree Exact) (p : Place)
    (q : Rule Exact) : ℝ :=
  (q.replicatingSlots.map fun slot => (around g x p m q slot).prob s fun t => t.Variant y).sum /
    q.replicatingSlots.length

theorem ruleProb_nonneg : 0 ≤ ruleProb g s x y m p q := by
  refine div_nonneg (List.sum_nonneg fun z hz => ?_) (Nat.cast_nonneg _)
  obtain ⟨slot, -, rfl⟩ := List.mem_map.mp hz
  exact Sampler.prob_nonneg ..

theorem ruleProb_eq_zero (h : ∀ slot ∈ q.replicatingSlots,
    (around g x p m q slot).prob s (fun t => t.Variant y) = 0) : ruleProb g s x y m p q = 0 := by
  rw [ruleProb, sum_map_eq_zero h, zero_div]

theorem probAt_eq (hm : x.get? p = some m) (s : NameSupply) : probAt g s x y p =
    ((replicatingRules g x p).map (ruleProb g s x y m p)).sum / (replicatingRules g x p).length := by
  rw [probAt, hm]
  dsimp only
  rw [atSite, prob_uniformChoice_getOrFail]
  congr 2
  refine List.map_congr_left fun q _ => ?_
  rw [prob_uniformChoice_getOrFail, ruleProb]

theorem length_mul_probAt (hm : x.get? p = some m) (s : NameSupply) :
    (replicatingRules g x p).length * probAt g s x y p =
      ((replicatingRules g x p).map (ruleProb g s x y m p)).sum := by
  rw [probAt_eq hm]
  cases hrules : replicatingRules g x p with
  | nil => simp
  | cons q qs =>
    refine mul_div_cancel₀ _ ?_
    rw [List.length_cons]
    positivity

theorem probAt_eq_zero_of_rules (hm : x.get? p = some m)
    (h : ∀ q ∈ replicatingRules g x p, ∀ slot ∈ q.replicatingSlots,
      (around g x p m q slot).prob s (fun t => t.Variant y) = 0) : probAt g s x y p = 0 := by
  rw [probAt_eq hm, sum_map_eq_zero fun q hq => ruleProb_eq_zero (h q hq), zero_div]

theorem probAt_eq_zero (h : ¬ AgreeOff Eq x y p) : probAt g s x y p = 0 := by
  cases hm : x.get? p with
  | none => rw [probAt, hm]
  | some m =>
    exact probAt_eq_zero_of_rules hm fun q hq slot _ =>
      prob_around_eq_zero hm (nonterminal_of_mem_replicatingRules hm hq) s (.inl h)

/-- A node is put around a subtree only below one of the same nonterminal. -/
theorem probAt_eq_zero_of_ne (hm : x.get? p = some m)
    (hne : ∀ n, y.get? p = some n → m.nonterminal ≠ n.nonterminal) : probAt g s x y p = 0 :=
  probAt_eq_zero_of_rules hm fun _ hq _ _ =>
    prob_around_eq_zero hm (nonterminal_of_mem_replicatingRules hm hq) s (.inr hne)

/-- No node is put into a tree that stays the same. -/
theorem probAt_eq_zero_of_variant (hx : g.Derivable s x) (h : x.Variant y) (p : Place) :
    probAt g s x y p = 0 := by
  cases hm : x.get? p with
  | none => rw [probAt, hm]
  | some m =>
    obtain ⟨-, n, hn, hmn⟩ := VariantOver.at_place h hm
    refine probAt_eq_zero_of_rules hm fun q hq slot hslot => ?_
    refine prob_around_other hx hm hn ((mem_replicatingRules hm).mp hq).1
      (fun u _ hinner hvar => ?_) hslot
    -- The node would have to be as large as the subtree that it stands around.
    have hlt := countNodes_lt_of_child? hinner
    rw [hvar.countNodes_eq, hmn.countNodes_eq] at hlt
    exact Nat.lt_irrefl _ hlt

/-- Where the trees agree only the counterpart of a rule counts. -/
theorem sum_ruleProb (hg : g.Proper) (hx : g.Derivable s x) (hm : x.get? p = some m)
    (hn : y.get? p = some n) (hr : r ∈ g.visibleRules m.nonterminal (x.variablesAbove p))
    (hunique : ∀ q ∈ g.visibleRules m.nonterminal (x.variablesAbove p), ∀ u, g.IsInstance q u →
      u.VariantOver (Matching.along Eq x y p) n → q = r) :
    ((replicatingRules g x p).map (ruleProb g s x y m p)).sum = ruleProb g s x y m p r := by
  have hdm := hx.derived_at hm
  have hothers : ∀ q ∈ replicatingRules g x p, q ≠ r → ruleProb g s x y m p q = 0 := by
    intro q hq hne
    obtain ⟨hq, -⟩ := (mem_replicatingRules hm).mp hq
    exact ruleProb_eq_zero fun slot hslot =>
      prob_around_other hx hm hn hq (fun u hu _ hvar => hne (hunique q hq u hu hvar)) hslot
  by_cases hnone : r.replicatingSlots = []
  · rw [ruleProb_eq_zero (q := r) (by simp [hnone])]
    exact sum_map_eq_zero fun q hq =>
      hothers q hq fun heq => ((mem_replicatingRules hm).mp hq).2 (heq ▸ hnone)
  · refine sum_map_eq_single ((mem_replicatingRules hm).mpr ⟨hr, hnone⟩) ?_ hothers
    rw [replicatingRules, hm]
    exact (Grammar.nodup_visibleRules hg.distinct hdm.wellNamed).filter _

/-- The rule that makes, in the scope of the first tree, what the second tree has at a place. It
alone comes to a variant of the second tree, and only at a slot that holds what the first tree has
there. -/
structure Counterpart (g : Grammar Exact) (s : NameSupply) (x y m n : Tree Exact) (p : Place)
    (r : Rule Exact) : Prop where
  nonterminal_eq : r.nonterminal = n.nonterminal
  symbols_eq : r.symbols = n.args.map Arg.symbol
  scored : ∃ r', g.ruleForNode (y.variablesAbove p) n = .ok r' ∧
    r'.replicatingSlots = r.replicatingSlots
  sum_eq : ((replicatingRules g x p).map (ruleProb g s x y m p)).sum = ruleProb g s x y m p r
  prob_eq : ∀ slot ∈ r.replicatingSlots, (around g x p m r slot).prob s (fun t => t.Variant y) =
    if x.alikeAt p y (p ++ [slot]) then ((siblings slot 0 n.args).map (g.argChance
      (g.maxDepth + 1) (Scope.below (y.variablesAbove p) n.kind))).prod else 0

theorem exists_counterpart (hg : g.Proper) (hplain : g.PlainNames) (hx : g.Derivable s x)
    (hy : g.Derivable names y) (hagree : AgreeOff Eq x y p) (hm : x.get? p = some m)
    (hn : y.get? p = some n) (hnt : m.nonterminal = n.nonterminal) :
    ∃ r, Counterpart g s x y m n p r := by
  have hdm := hx.derived_at hm
  have hdn := hy.derived_at hn
  have hal := hagree.aligned hx hy
  obtain ⟨r', hr', hinst, hrule⟩ := hdn.exists_rule hg.distinct hg.unreserved
  obtain ⟨r, hr, hrr', hhead, hunique⟩ := Grammar.exists_counterpart hg.distinct hdm.wellNamed
    hal hr' hinst hdn.wellNamed.isVariableUse
  have hrnt : r.nonterminal = n.nonterminal := Grammar.nonterminal_of_mem_visibleRules hr
  have hsymbols : r.symbols = r'.symbols := congrArg (·.getD []) hrr'.expansion_eq
  have hslots : r'.replicatingSlots = r.replicatingSlots := by
    rw [Rule.replicatingSlots, Rule.replicatingSlots, hsymbols, hrr'.nonterminal_eq]
  have hnode := hsymbols.trans hinst.symbols_eq.symm
  rw [← hnt] at hr hunique
  exact ⟨r, hrnt, hnode, ⟨r', hrule, hslots⟩, sum_ruleProb hg hx hm hn hr hunique,
    fun slot hslot => prob_around_counterpart hg hplain hx hy hagree hm hn (hrnt.trans hnt.symm)
      hnode hhead hslot⟩

/-- The scores of the slots of the node at a place rate the probability of inserting it, apart from
the choice of its rule. -/
theorem rates_probAt (hg : g.Proper) (hplain : g.PlainNames) (hx : g.Derivable s x)
    (hy : g.Derivable names y) (hm : x.get? p = some m) (hn : y.get? p = some n)
    (hnt : m.nonterminal = n.nonterminal) : ∃ r' lps,
      g.ruleForNode (y.variablesAbove p) n = .ok r' ∧
        slotLogProbabilities g x y n p r'.replicatingSlots r'.replicatingSlots = .ok lps ∧
          Rates (g.Reaches x y ∧ AgreeOff Eq x y p) (Scalar.logSumExp lps)
            ((replicatingRules g x p).length * probAt g s x y p) := by
  rw [length_mul_probAt hm]
  by_cases hagree : AgreeOff Eq x y p
  · obtain ⟨r, hr⟩ := exists_counterpart hg hplain hx hy hagree hm hn hnt
    obtain ⟨r', hrule, hslots⟩ := hr.scored
    have hrated : ∃ lps, slotLogProbabilities g x y n p r.replicatingSlots r.replicatingSlots =
        .ok lps ∧ RatesSum (g.Reaches x y ∧ AgreeOff Eq x y p) lps (r.replicatingSlots.map fun slot =>
          (r.replicatingSlots.length : ℝ)⁻¹ *
            (around g x p m r slot).prob s fun t => t.Variant y).sum := by
      refine ratesSum_slots (fun slot hslot halike => ?_) fun slot hslot halike => ?_
      · obtain ⟨lp, hlp, hrates⟩ := rates_siblings hg hy hn slot (List.length_pos_of_mem hslot)
        rw [hr.prob_eq slot hslot, if_pos halike]
        exact ⟨lp, hlp, hrates.of_le le_rfl fun h => ⟨h.1.2, rfl⟩⟩
      · rw [hr.prob_eq slot hslot, if_neg halike, mul_zero]
    obtain ⟨lps, hlps, hrates⟩ := hrated
    refine ⟨r', lps, hrule, hslots ▸ hlps, ?_⟩
    rw [hr.sum_eq, ruleProb, div_eq_inv_mul, ← List.sum_map_mul_left]
    exact hrates.logSumExp
  · have hdn := hy.derived_at hn
    obtain ⟨r', -, -, hrule⟩ := hdn.exists_rule hg.distinct hg.unreserved
    have hzero : ((replicatingRules g x p).map (ruleProb g s x y m p)).sum = 0 := by
      rw [← length_mul_probAt hm, probAt_eq_zero hagree, mul_zero]
    have hrated : ∃ lps, slotLogProbabilities g x y n p r'.replicatingSlots r'.replicatingSlots =
        .ok lps ∧ RatesSum (g.Reaches x y ∧ AgreeOff Eq x y p) lps
          (r'.replicatingSlots.map fun _ => (0 : ℝ)).sum := by
      refine ratesSum_slots (fun slot hslot halike => ?_) fun slot hslot halike => rfl
      obtain ⟨lp, hlp, q, hq, rfl, -, -⟩ :=
        rates_siblings hg hy hn slot (List.length_pos_of_mem hslot)
      exact ⟨_, hlp, q, hq, rfl, hq, fun h => absurd h.2 hagree⟩
    obtain ⟨lps, hlps, hrates⟩ := hrated
    refine ⟨r', lps, hrule, hlps, ?_⟩
    rw [hzero, ← show (r'.replicatingSlots.map fun _ => (0 : ℝ)).sum = 0 by simp]
    exact hrates.logSumExp

end Slots

theorem prob_propose (hw : w.Nonneg) (s : NameSupply) (x y : Tree Exact) :
    (propose g w x).prob s (fun t => t.Variant y) =
      (x.places.map fun p => x.siteShare (siteWeight g w x) p * probAt g s x y p).sum := by
  rw [propose_eq]
  refine prob_drawSite (fun q k _ => weight_nonneg hw q k) (Sampler.prob_throw ..)
    fun p m l hm _ => ?_
  rw [probAt, hm]

theorem length_pos_of_share (hm : x.get? p = some m)
    (h : x.siteShare (siteWeight g w x) p ≠ 0) : 0 < (replicatingRules g x p).length := by
  refine List.length_pos_iff.mpr fun hnone => h ?_
  rw [siteShare_eq hm, siteWeight, hnone]
  simp [zero_eq]

/-- The choice of the place and that of the rule are rated together with what comes after them. -/
theorem rates_after_choices (hw : w.Nonneg) (hm : x.get? p = some m)
    (hshare : x.siteShare (siteWeight g w x) p ≠ 0) {exact : Prop} {lp : Exact}
    (hrates : Rates exact lp ((replicatingRules g x p).length * probAt g s x y p)) :
    Rates exact (logOf (x.siteShare (siteWeight g w x) p) -
        Scalar.safeLog (Scalar.ofNat (replicatingRules g x p).length) + lp)
      (x.siteShare (siteWeight g w x) p * probAt g s x y p) := by
  have hnonneg : 0 ≤ x.siteShare (siteWeight g w x) p :=
    siteShare_nonneg (fun q k _ => weight_nonneg hw q k) p
  have hcount : (0 : ℝ) < (replicatingRules g x p).length :=
    Nat.cast_pos.mpr (length_pos_of_share hm hshare)
  have hvalue : x.siteShare (siteWeight g w x) p * probAt g s x y p =
      x.siteShare (siteWeight g w x) p / (replicatingRules g x p).length *
        ((replicatingRules g x p).length * probAt g s x y p) := by
    field_simp
  rw [ofNat_eq, safeLog_real, logOf_sub hnonneg hcount, hvalue]
  exact hrates.after (div_nonneg hnonneg hcount.le)

/-- Place by place the scores rate the probabilities. -/
theorem ratedSites_siteLogProbabilities (hg : g.Proper) (hplain : g.PlainNames) (hw : w.Nonneg)
    (hx : g.Derivable s x) (hy : g.Derivable names y) {places : List Place}
    (hplaces : ∀ p ∈ places, (x.get? p).isSome ∧ (g.Reaches x y → AgreeOff Eq x y p)) :
    ∃ lps, siteLogProbabilities g w (x.siteTotal (siteWeight g w x)) x y places = .ok lps ∧
      RatedSites (siteWeight g w x) (g.Reaches x y) x (probAt g s x y) places lps := by
  have hweight : ∀ q k, x.get? q = some k → (siteWeight g w x q k).Nonneg :=
    fun q k _ => weight_nonneg hw q k
  induction places with
  | nil => exact ⟨[], rfl, .nil⟩
  | cons p places ih =>
    obtain ⟨lps, hlps, hrated⟩ := ih fun q hq => hplaces q (List.mem_cons_of_mem p hq)
    obtain ⟨hsome, hagree⟩ := hplaces p List.mem_cons_self
    obtain ⟨m, hm⟩ := Option.isSome_iff_exists.mp hsome
    by_cases hsame : ∃ n, y.get? p = some n ∧ m.nonterminal = n.nonterminal
    · obtain ⟨n, hn, hnt⟩ := hsame
      obtain ⟨r, slotLps, hrule, hslots, hrates⟩ := rates_probAt hg hplain hx hy hm hn hnt
      rw [siteLogProbabilities_cons hm hn hnt hrule hslots hlps]
      by_cases hnever : x.siteLogProbabilityOf (x.siteTotal (siteWeight g w x))
          (siteWeight g w x) p = negInf
      · refine ⟨lps, if_pos (by rw [hnever]; rfl), hrated.skip ?_⟩
        rw [siteShare_eq_zero_of_negInf hweight hm hnever, zero_mul]
      · refine ⟨_, if_neg ((beq_negInf _).not.mpr hnever), hrated.cons (fun hpos => ?_) fun hzero => ?_⟩
        · rw [siteLogProbabilityOf_eq hweight hpos hm] at hnever ⊢
          have hshare : x.siteShare (siteWeight g w x) p ≠ 0 := fun hzero =>
            hnever (by rw [hzero, logOf_zero])
          exact (rates_after_choices hw hm hshare hrates).of_le le_rfl
            fun h => ⟨⟨h, hagree h⟩, rfl⟩
        · rw [siteLogProbabilityOf_eq_nan hweight hzero hm, nan_sub, nan_add]
    · have hne : ∀ n, y.get? p = some n → m.nonterminal ≠ n.nonterminal :=
        fun n hn hnt => hsame ⟨n, hn, hnt⟩
      refine ⟨lps, ?_, hrated.skip ?_⟩
      · rw [siteLogProbabilities_skip fun m' n hm' hn => ?_, hlps]
        exact Option.some.inj (hm.symm.trans hm') ▸ hne n hn
      · rw [probAt_eq_zero_of_ne hm hne, mul_zero]

/-- The score of insertion rates its probability. -/
theorem rates_propose (hg : g.Proper) (hplain : g.PlainNames) (hw : w.Nonneg)
    (hx : g.Derivable s x) (hy : g.Derivable names y) :
    ∃ lp, logProbability g w x y = .ok lp ∧
      Rates (g.Reaches x y) lp ((propose g w x).prob s fun t => t.Variant y) := by
  rw [prob_propose hw]
  by_cases hvar : x.Variant y
  · have hnone := (leastCommonDifference_eq_none_iff hg.distinct hplain hx hy).mpr hvar
    have hzero : (x.places.map fun p =>
        x.siteShare (siteWeight g w x) p * probAt g s x y p).sum = 0 :=
      sum_map_eq_zero fun p _ => by rw [probAt_eq_zero_of_variant hx hvar, mul_zero]
    rw [hzero]
    exact ⟨negInf, logProbability_of_none hnone, 0, le_rfl, logOf_zero.symm, le_rfl, fun _ => rfl⟩
  · obtain ⟨q, hq, -⟩ := exists_leastCommonDifference hg.distinct hplain hx hy hvar
    have hplaces := of_mem_editSites hg.distinct hplain hx hy
    obtain ⟨lps, hlps, hrated⟩ := ratedSites_siteLogProbabilities hg hplain hw hx hy
      fun p hp => ⟨(hplaces p hp).1, fun h => (hplaces p hp).2 h.complete⟩
    rw [sum_editSites hg.distinct hplain hx hy fun p => probAt_eq_zero]
    rw [editSites, hq] at hlps
    exact ⟨Scalar.logSumExp lps, logProbability_of_some hq hlps,
      hrated.logSumExp fun q k _ => weight_nonneg hw q k⟩

end ScopedGrammar.Insertion
