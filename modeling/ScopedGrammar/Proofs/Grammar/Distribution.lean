import ScopedGrammar.Proofs.Grammar.Alignment
import ScopedGrammar.Proofs.Grammar.Generated
import ScopedGrammar.Proofs.Grammar.Mass
import ScopedGrammar.Proofs.Random.Expectation
import ScopedGrammar.Proofs.Scalar.Rates

/-!
# The distribution of generated trees

Generation comes to a variant of a tree with a probability equal to the mass of the tree, as long as
the tree is complete and within the limit of the depth, and never otherwise. The tree is derived in
one scope and generation goes on in another one that is aligned with it. By induction on the levels
left, each expansion has exactly one rule to offer that makes the root of a variant.
-/
namespace ScopedGrammar.Grammar

open Exact

variable {g : Grammar Exact} {scope S T : Scope Exact} {M : Matching} {nt : String}
  {names : NameSupply} {s : NameSupply} {t c : Tree Exact}

open Classical in
/-- The probability of a tree within some levels: its mass, if it is complete and not too deep. -/
noncomputable def chance (g : Grammar Exact) (levels : ℕ) (scope : Scope Exact) (t : Tree Exact) : ℝ :=
  if t.depth < levels ∧ g.Complete t then g.treeMass scope t else 0

/-- The probability of an argument within some levels. A terminal that could be expanded is never
left as it is. -/
noncomputable def argChance (g : Grammar Exact) (levels : ℕ) (scope : Scope Exact) : Arg Exact → ℝ
  | .subtree t => if g.isNonterminal t.nonterminal then g.chance levels scope t else 0
  | .terminal s => if g.isNonterminal s then 0 else 1

theorem complete_iff : g.Complete t ↔
    (∀ a ∈ t.args, a.asTree?.isSome = g.isNonterminal a.symbol) ∧
      ∀ c, .subtree c ∈ t.args → g.Complete c := by
  constructor
  · rintro ⟨hfilled, hargs⟩
    exact ⟨hfilled, hargs⟩
  · rintro ⟨hfilled, hargs⟩
    exact .node hfilled hargs

theorem chance_pos_iff {levels : ℕ} (hmass : 0 < g.treeMass scope t) :
    0 < g.chance levels scope t ↔ t.depth < levels ∧ g.Complete t := by
  rw [chance]
  split_ifs with h
  · exact iff_of_true hmass h
  · exact iff_of_false (lt_irrefl _) h

/-- An argument that was expanded if it could be, and not too deeply, has the probability of its
mass. -/
theorem argChance_eq {levels : ℕ} {a : Arg Exact} (hfill : a.asTree?.isSome = g.isNonterminal a.symbol)
    (hsub : ∀ c, a = .subtree c → c.depth < levels ∧ g.Complete c) :
    g.argChance levels scope a = g.argMass scope a := by
  cases a with
  | subtree c =>
    have hnt : g.isNonterminal c.nonterminal = true := hfill.symm
    rw [argMass, argChance, if_pos hnt, chance, if_pos (hsub c rfl)]
  | terminal s =>
    have hnt : ¬ g.isNonterminal s = true := by
      have hfalse : false = g.isNonterminal s := hfill
      rw [← hfalse]
      exact Bool.false_ne_true
    rw [argMass, argChance, if_neg hnt]

/-- The mass of an argument bounds its probability. -/
theorem argChance_le {levels : ℕ} {a : Arg Exact}
    (hmass : ∀ c, a = .subtree c → 0 < g.treeMass scope c) :
    0 ≤ g.argChance levels scope a ∧ g.argChance levels scope a ≤ g.argMass scope a := by
  cases a with
  | subtree c =>
    have hpos := hmass c rfl
    simp only [argChance, argMass, chance]
    split_ifs
    · exact ⟨hpos.le, le_rfl⟩
    · exact ⟨le_rfl, hpos.le⟩
    · exact ⟨le_rfl, hpos.le⟩
  | terminal s =>
    simp only [argChance, argMass]
    split_ifs
    · exact ⟨le_rfl, zero_le_one⟩
    · exact ⟨zero_le_one, le_rfl⟩

/-- An argument that may be filled in is a subtree if its symbol can be expanded, and a terminal
otherwise. -/
theorem isSome_of_argChance_ne_zero {levels : ℕ} {a : Arg Exact}
    (h : g.argChance levels scope a ≠ 0) : a.asTree?.isSome = g.isNonterminal a.symbol := by
  cases a with
  | subtree c =>
    simp only [argChance] at h
    split_ifs at h with hnt
    · exact hnt.symm
    · exact absurd rfl h
  | terminal s =>
    simp only [argChance] at h
    split_ifs at h with hnt
    · exact absurd rfl h
    · simpa [Arg.asTree?, Arg.symbol] using hnt

theorem of_argChance_ne_zero {levels : ℕ} {c : Tree Exact}
    (h : g.argChance levels scope (.subtree c) ≠ 0) : c.depth < levels ∧ g.Complete c := by
  simp only [argChance, chance] at h
  split_ifs at h with _ hreach
  · exact hreach
  all_goals exact absurd rfl h

/-- The probability of a tree is the mass of its root times the probabilities of its arguments. -/
theorem chance_succ (levels : ℕ) (scope : Scope Exact) (t : Tree Exact) :
    g.chance (levels + 1) scope t =
      g.nodeMass scope t * (t.args.map (g.argChance levels (scope.below t.kind))).prod := by
  have hcond : t.depth < levels + 1 ∧ g.Complete t ↔ (∀ c, .subtree c ∈ t.args → c.depth < levels) ∧
      (∀ a ∈ t.args, a.asTree?.isSome = g.isNonterminal a.symbol) ∧
        ∀ c, .subtree c ∈ t.args → g.Complete c := by
    rw [Tree.depth_lt_succ_iff, complete_iff]
  rw [chance]
  by_cases h : (∀ c, .subtree c ∈ t.args → c.depth < levels) ∧
      (∀ a ∈ t.args, a.asTree?.isSome = g.isNonterminal a.symbol) ∧
        ∀ c, .subtree c ∈ t.args → g.Complete c
  · obtain ⟨hdepth, hfilled, hcomplete⟩ := h
    rw [if_pos (hcond.mpr ⟨hdepth, hfilled, hcomplete⟩), treeMass_eq]
    congr 2
    refine List.map_congr_left fun a ha => (argChance_eq (hfilled a ha) fun c hc => ?_).symm
    subst hc
    exact ⟨hdepth c ha, hcomplete c ha⟩
  · rw [if_neg (mt hcond.mp h)]
    have hzero : ∃ a ∈ t.args, g.argChance levels (scope.below t.kind) a = 0 := by
      by_contra hall
      push Not at hall
      exact h ⟨fun c hc => (of_argChance_ne_zero (hall _ hc)).1,
        fun a ha => isSome_of_argChance_ne_zero (hall a ha),
        fun c hc => (of_argChance_ne_zero (hall _ hc)).2⟩
    obtain ⟨a, ha, hzero⟩ := hzero
    rw [List.prod_eq_zero (List.mem_map.mpr ⟨a, ha, hzero⟩), mul_zero]

theorem mean_sampleRule (hpos : g.PositiveWeights) (hscope : ∀ v ∈ scope, v.weight.Positive)
    (hne : g.visibleRules nt scope ≠ []) (s : NameSupply) (φ : Rule Exact → NameSupply → ℝ) :
    (g.sampleRule nt scope).mean s φ = ((g.visibleRules nt scope).map fun r =>
      r.weight.toReal / (g.visibleWeight nt scope).toReal * φ r s).sum := by
  obtain ⟨r, hr⟩ := List.exists_mem_of_ne_nil _ hne
  have htotal := visibleWeight_pos hpos hscope hr
  rw [visibleWeight_eq_real hpos hscope, toReal_real] at htotal ⊢
  have hempty : (g.visibleRules nt scope).isEmpty = false := by simpa using hne
  simp only [sampleRule, hempty, Bool.false_and, Bool.false_eq_true, if_false]
  rw [Sampler.mean_bind, mean_weightedChoice fun q hq => (hpos.visible hscope q hq).nonneg,
    if_pos htotal]
  simp

/-- The arguments of a node are drawn independently of each other, given the node. -/
theorem prob_expandArgs {levels : ℕ}
    (ih : ∀ {S T : Scope Exact} {M : Matching} {t : Tree Exact} {s : NameSupply},
      S.WellNamed s → Scope.Aligned M S T → g.Weighted names T t →
        (g.expandTraced levels S t.nonterminal).prob s (fun x => x.1.VariantOver M t) =
          g.chance levels T t)
    (hal : Scope.Aligned M S T) {as : List (Arg Exact)}
    (hargs : ∀ c, .subtree c ∈ as → g.Weighted names T c) {s : NameSupply} (hS : S.WellNamed s) :
    (expandTraced.expandArgsTraced g (g.expandTraced levels) S (as.map Arg.symbol)).prob s
      (fun x => List.Forall₂ (Arg.VariantOver M) x.1 as) = (as.map (g.argChance levels T)).prod := by
  classical
  induction as generalizing s with
  | nil => simp [expandTraced.expandArgsTraced]
  | cons a as iha =>
    have hrest := fun {s : NameSupply} (hS : S.WellNamed s) =>
      iha (fun c hc => hargs c (List.mem_cons_of_mem a hc)) hS
    rw [List.map_cons, List.map_cons, List.prod_cons, expandTraced.expandArgsTraced]
    split_ifs with hnt
    · -- The first argument is expanded, so it can only become a subtree.
      rw [Sampler.prob_bind]
      cases a with
      | terminal symbol =>
        have hzero : g.argChance levels T (.terminal symbol) = 0 := if_pos hnt
        rw [hzero, zero_mul, ← Sampler.prob_bind]
        refine Sampler.prob_eq_zero fun x s' hx h => ?_
        obtain ⟨y, s₁, -, hx⟩ := (Sampler.yields_bind_ok ..).mp hx
        obtain ⟨z, s₂, -, hx⟩ := (Sampler.yields_bind_ok ..).mp hx
        obtain ⟨hx, -⟩ := (Sampler.yields_pure ..).mp hx
        cases hx
        cases h with
        | cons hab _ => cases hab
      | subtree c =>
        have hvalue : g.argChance levels T (.subtree c) = g.chance levels T c := if_pos hnt
        rw [hvalue, ← ih hS hal (hargs c List.mem_cons_self), ← Sampler.mean_ite_const]
        refine Sampler.mean_congr fun x s' hx => ?_
        have hissued : s.issued ≤ s'.issued := (expanded_of_yields hx).issued_le
        rw [← hrest (hS.mono hissued), ← Sampler.prob_and, Sampler.prob_bind_pure]
        refine Sampler.prob_congr fun y s'' _ => ?_
        rw [List.forall₂_cons]
        refine and_congr_left fun _ => ⟨fun h => ?_, .subtree⟩
        cases h with
        | subtree h => exact h
    · -- The first argument is a terminal, which stays as it is.
      rw [Sampler.prob_bind_pure]
      cases a with
      | subtree c =>
        have hzero : g.argChance levels T (.subtree c) = 0 := if_neg hnt
        rw [hzero, zero_mul]
        refine Sampler.prob_eq_zero fun y s' _ h => ?_
        cases h with
        | cons hab _ => cases hab
      | terminal symbol =>
        have hvalue : g.argChance levels T (.terminal symbol) = 1 := if_neg hnt
        rw [hvalue, one_mul, ← hrest hS]
        refine Sampler.prob_congr fun y s' _ => ?_
        rw [List.forall₂_cons]
        exact ⟨And.right, fun h => ⟨.terminal symbol, h⟩⟩

/-- A node made by a rule is an instance of it. -/
theorem isInstance_of_yields_makeNode {levels : ℕ} {r : Rule Exact} {s s' : NameSupply}
    {x : Tree Exact × List (Rule Exact)}
    (h : (g.makeNode (expandTraced.expandArgsTraced g (g.expandTraced levels)) scope r).Yields s
      (.ok x) s') : g.IsInstance r x.1 := by
  obtain ⟨kind, s₁, hkind, hfill⟩ := (Sampler.yields_bind_ok ..).mp h
  obtain ⟨heq, rfl⟩ := (Sampler.yields_ofNaming ..).mp hkind
  obtain ⟨hmakes, -, -⟩ := kindOf_spec g r s
  cases heq
  cases hexp : r.expansion with
  | none =>
    rw [hexp] at hfill
    obtain ⟨heq, -⟩ := (Sampler.yields_pure ..).mp hfill
    cases heq
    exact ⟨by simp [Rule.signature, hexp], hmakes⟩
  | some symbols =>
    rw [hexp] at hfill
    obtain ⟨⟨as, rules⟩, s₂, has, heq⟩ := (Sampler.yields_bind_ok ..).mp hfill
    obtain ⟨heq, -⟩ := (Sampler.yields_pure ..).mp heq
    cases heq
    have hargs := expandedArgs_of_yields expanded_of_yields has
    exact ⟨by simp [Rule.signature, hexp, hargs.symbols_eq], hmakes⟩

/-- A node made by the counterpart of the rule of a tree becomes a variant of the tree if the
arguments do. -/
theorem prob_makeNode {levels : ℕ}
    (ih : ∀ {S T : Scope Exact} {M : Matching} {t : Tree Exact} {s : NameSupply},
      S.WellNamed s → Scope.Aligned M S T → g.Weighted names T t →
        (g.expandTraced levels S t.nonterminal).prob s (fun x => x.1.VariantOver M t) =
          g.chance levels T t)
    (hg : g.Proper) (hS : S.WellNamed s) (hal : Scope.Aligned M S T)
    (ht : g.Weighted names T t) {r : Rule Exact}
    (hexp : r.expansion = t.args?.map (·.map Arg.symbol))
    (hhead : ∀ kind args?, g.Makes r kind → args?.isSome = t.args?.isSome →
      Tree.HeadOver M (.node r.nonterminal r.name kind args?) t) :
    (g.makeNode (expandTraced.expandArgsTraced g (g.expandTraced levels)) S r).prob s
      (fun x => x.1.VariantOver M t) =
        (t.args.map (g.argChance levels (T.below t.kind))).prod := by
  obtain ⟨hmakes, -, -⟩ := kindOf_spec g r s
  obtain ⟨hnew, hwell⟩ := kindOf_fresh g r hS
  rw [makeNode, Sampler.prob_bind, Sampler.mean_ofNaming]
  generalize g.kindOf r s = step at hmakes hnew hwell
  obtain ⟨kind, s₁⟩ := step
  obtain ⟨nt, name, kind', args?⟩ := t
  cases args? with
  | none =>
    have hexp : r.expansion = none := hexp
    simp only [hexp]
    rw [Sampler.prob_pure, if_pos]
    · simp
    · exact Tree.variantOver_iff.mpr ⟨hhead kind none hmakes rfl, .nil⟩
  | some as =>
    have hexp : r.expansion = some (as.map Arg.symbol) := hexp
    have hroot := fun bs => hhead kind (some bs) hmakes rfl
    have hbelow : Scope.Aligned (M.below kind kind') (S.below kind) (T.below kind') := by
      refine hal.below (hroot as).introduced? hnew fun w hw => ?_
      exact ht.fresh.disjoint _ (by simp [Tree.introducedNames_node, hw])
    have hargs : ∀ c, .subtree c ∈ as → g.Weighted names (T.below kind') c :=
      fun c hc => ht.child hg.positive hc
    simp only [hexp]
    rw [Sampler.prob_bind_pure, Tree.kind_node, Tree.args_node, Option.getD_some,
      ← prob_expandArgs ih hbelow hargs hwell]
    refine Sampler.prob_congr fun x s' _ => ?_
    rw [Tree.variantOver_iff]
    exact and_iff_right (hroot x.1)

/-- Expanding a nonterminal comes to a variant of a tree with the probability of the tree. -/
theorem prob_expandTraced (hg : g.Proper) {levels : ℕ} (hS : S.WellNamed s)
    (hal : Scope.Aligned M S T) (ht : g.Weighted names T t) :
    (g.expandTraced levels S t.nonterminal).prob s (fun x => x.1.VariantOver M t) =
      g.chance levels T t := by
  induction levels generalizing S T M t s with
  | zero => simp [expandTraced, chance]
  | succ levels ih =>
    obtain ⟨r', hr', hinst, hmass, -, -⟩ := ht.exists_nodeMass hg
    obtain ⟨r, hr, hrr', hhead, hunique⟩ :=
      exists_counterpart hg.distinct hS hal hr' hinst ht.wellNamed.isVariableUse
    have hpos : ∀ v ∈ S, v.weight.Positive := by
      intro v hv
      obtain ⟨w, hw, heq⟩ := hal.exists_weight_eq v hv
      exact heq ▸ ht.positive w hw
    have hexp : r.expansion = t.args?.map (·.map Arg.symbol) :=
      hrr'.expansion_eq.trans (congrArg Signature.expansion hinst.signature_eq)
    rw [expandTraced_succ, Sampler.prob_bind,
      mean_sampleRule hg.positive hpos (List.ne_nil_of_mem hr),
      sum_map_eq_single hr (nodup_visibleRules hg.distinct hS) fun q hq hne => ?_]
    · rw [prob_makeNode ih hg hS hal ht hexp hhead, chance_succ, hmass, hrr'.weight_eq,
        visibleWeight_eq hal.rules]
    · have hzero : (g.makeNode (expandTraced.expandArgsTraced g (g.expandTraced levels)) S q).prob s
          (fun x => x.1.VariantOver M t) = 0 :=
        Sampler.prob_eq_zero fun x s' hx hvar =>
          hne (hunique q hq x.1 (isInstance_of_yields_makeNode hx) hvar)
      rw [hzero, mul_zero]

theorem chance_le_treeMass (hmass : 0 < g.treeMass T t) (levels : ℕ) :
    g.chance levels T t ≤ g.treeMass T t := by
  unfold chance
  split_ifs
  · exact le_rfl
  · exact hmass.le

/-- Generation in an aligned scope comes to a variant of a tree with the probability of the tree. -/
theorem prob_generateIn_aligned (hg : g.Proper) (hS : S.WellNamed s) (hal : Scope.Aligned M S T)
    (ht : g.Weighted names T t) :
    (g.generateIn S t.nonterminal).prob s (fun u => u.VariantOver M t) =
      g.chance (g.maxDepth + 1) T t := by
  rw [generateIn_eq_traced, Sampler.prob_bind_pure, generateTraced]
  exact prob_expandTraced hg hS hal ht

/-- The score of a tree rates the probability that generation comes to a variant of it, exactly if
the tree can be generated. -/
theorem rates_generateIn (hg : g.Proper) (hS : S.WellNamed s) (hal : Scope.Aligned M S T)
    (ht : g.Weighted names T t) : ∃ lp, g.logProbabilityIn T t = .ok lp ∧
      Rates (g.Complete t ∧ t.depth ≤ g.maxDepth) lp
        ((g.generateIn S t.nonterminal).prob s fun u => u.VariantOver M t) := by
  obtain ⟨hmass, hscore⟩ := ht.logProbabilityIn_eq hg
  refine ⟨_, hscore, g.treeMass T t, hmass.le, (logOf_pos hmass).symm, ?_, fun hin => ?_⟩
  · rw [prob_generateIn_aligned hg hS hal ht]
    exact chance_le_treeMass hmass _
  · rw [prob_generateIn_aligned hg hS hal ht, chance, if_pos ⟨Nat.lt_succ_of_le hin.2, hin.1⟩]

/-- Generation has exactly the distribution that scoring says: it comes to a tree, up to the names
of bound variables, with the probability whose logarithm is the score of the tree, unless the tree
is too deep to be generated at all. -/
theorem prob_generateIn (hdist : g.DistinctSignatures) (hres : g.NoReservedNames)
    (hpos : g.PositiveWeights) (hscope : scope.WellNamed s)
    (huses : ∀ v ∈ scope, v.weight.Positive) (ht : g.Generable names scope t) :
    ∃ l : ℝ, g.logProbabilityIn scope t = .ok (real l) ∧
      (g.generateIn scope t.nonterminal).prob s (fun u => u.Variant t) =
        if t.depth ≤ g.maxDepth then Real.exp l else 0 := by
  have hweighted : g.Weighted names scope t := ⟨ht.toDerived, huses⟩
  obtain ⟨hmass, hscore⟩ := hweighted.logProbabilityIn_eq ⟨hdist, hres, hpos⟩
  refine ⟨_, hscore, ?_⟩
  refine (prob_generateIn_aligned ⟨hdist, hres, hpos⟩ hscope (.self hscope.nodup) hweighted).trans ?_
  simp only [chance, ht.complete, and_true, Nat.lt_succ_iff, Real.exp_log hmass]

theorem positiveWeights_terms : (terms : Grammar Exact).PositiveWeights := by
  have hone : (1 : Exact).Positive := ⟨1, one_pos, rfl⟩
  refine ⟨fun r hr => ?_, fun r hr spec hspec => ?_⟩
  · rw [allRules_terms] at hr
    simp only [List.mem_cons, List.not_mem_nil, or_false] at hr
    rcases hr with rfl | rfl | rfl <;> exact hone
  · rw [allRules_terms] at hr
    simp only [List.mem_cons, List.not_mem_nil, or_false] at hr
    rcases hr with rfl | rfl | rfl <;> cases hspec
    exact hone

/-- The function that returns its argument has a probability of its own. -/
theorem prob_generateIn_identityTerm :
    (terms : Grammar Exact).DistinctSignatures ∧ (terms : Grammar Exact).NoReservedNames ∧
      (terms : Grammar Exact).PositiveWeights ∧ Scope.WellNamed ([] : Scope Exact) .initial ∧
      (terms : Grammar Exact).Generable ⟨1⟩ [] identityTerm ∧
      ∃ l : ℝ, terms.logProbabilityIn [] identityTerm = .ok (real l) ∧
        (terms.generateIn [] "T").prob .initial (fun u => u.Variant identityTerm) = Real.exp l := by
  have hgenerable : (terms : Grammar Exact).Generable ⟨1⟩ [] identityTerm :=
    ⟨derived_identityTerm, complete_identityTerm⟩
  obtain ⟨l, hl, hprob⟩ := prob_generateIn distinctSignatures_terms noReservedNames_terms
    positiveWeights_terms (.nil : Scope.WellNamed _ .initial) (by simp) hgenerable
  refine ⟨distinctSignatures_terms, noReservedNames_terms, positiveWeights_terms, .nil, hgenerable,
    l, hl, hprob.trans (if_pos ?_)⟩
  simp [identityTerm, Tree.depth, Tree.heightArgs, terms]

end ScopedGrammar.Grammar
