import ScopedGrammar.Proofs.Chain.Score
import ScopedGrammar.Proofs.Move.Ceiling

/-!
# Scores that go stale

A step takes the score over to a tree that is alike to the current one. Where a rule is named like a
variable, trees may be alike and still be derived in different ways, with different probabilities.
Regeneration comes from one to the other, and then the chain is left with the score of a tree that
it has moved away from.
-/
namespace ScopedGrammar

open Exact

namespace Grammar

variable {name : String} {kind : NodeKind Exact} {r : Rule Exact}

/-- Functions of one variable and a constant, which is named as the first variable is printed. -/
noncomputable def lookalikes : Grammar Exact where
  start := "E"
  table :=
    (RuleTable.empty.insert ⟨"E", "lambda", some ["E"], 1, .binder ⟨"E", none, "y", none⟩⟩ rfl).insert
      ⟨"E", "y0", none, 1, .plain⟩ rfl
  variableWeight := real 10
  maxDepth := 15

/-- The variable of a function. -/
noncomputable def parameter : Rule Exact := ⟨"E", NameSupply.nameOf 0, none, real 10, .variableUse "y"⟩

/-- A function with a leaf for its body. -/
noncomputable def functionTo (name : String) (kind : NodeKind Exact) : Tree Exact :=
  .node "E" "lambda" (.binder parameter) (some [.subtree (.node "E" name kind none)])

theorem allRules_lookalikes : lookalikes.table.allRules =
    [⟨"E", "lambda", some ["E"], 1, .binder ⟨"E", none, "y", none⟩⟩, ⟨"E", "y0", none, 1, .plain⟩] :=
  rfl

theorem visibleRules_lookalikes (S : Scope Exact) : lookalikes.visibleRules "E" S =
    lookalikes.table.allRules ++ S.filter (·.nonterminal == "E") := rfl

theorem isNonterminal_lookalikes : lookalikes.isNonterminal "E" = true := by
  simp [isNonterminal, nonterminals, lookalikes, RuleTable.nonterminals,
    RuleTable.insert, Rows.mem_nonterminals_insert]

theorem proper_lookalikes : lookalikes.Proper := by
  have hone : (1 : Exact).Positive := ⟨1, one_pos, rfl⟩
  refine ⟨?_, ?_, ?_, ?_⟩
  · simp [DistinctSignatures, allRules_lookalikes, Rule.signature]
  · intro r hr n heq
    have hchars := congrArg String.toList heq
    rw [allRules_lookalikes] at hr
    simp only [List.mem_cons, List.not_mem_nil, or_false] at hr
    rcases hr with rfl | rfl <;> simp [NameSupply.nameOf] at hchars
  · rw [allRules_lookalikes]
    simpa using hone
  · rw [allRules_lookalikes]
    intro r hr spec hspec
    simp only [List.mem_cons, List.not_mem_nil, or_false] at hr
    rcases hr with rfl | rfl <;> cases hspec
    exact ⟨10, by norm_num, rfl⟩

theorem generable_functionTo (hr : r ∈ lookalikes.visibleRules "E" [parameter])
    (hinst : lookalikes.IsInstance r (.node "E" name kind none)) (hkind : kind.introduced? = none) :
    lookalikes.Generable ⟨1⟩ [] (functionTo name kind) := by
  have hbody : ∀ c, .subtree c ∈ (functionTo name kind).args → c = .node "E" name kind none :=
    fun c hc => by simpa [functionTo] using hc
  have hnames : (functionTo name kind).introducedNames = [NameSupply.nameOf 0] := by
    have hbinder : (NodeKind.binder parameter).introduced? = some parameter := rfl
    rw [functionTo, Tree.introducedNames_node, hbinder]
    simp [Tree.introducedNames_node, Tree.introducedNamesArgs, hkind, parameter]
  refine ⟨⟨.node ⟨"E", "lambda", some ["E"], 1, .binder ⟨"E", none, "y", none⟩⟩ ?_ ⟨rfl, ⟨_, rfl⟩⟩
    fun c hc => ?_, ⟨?_, ?_, ?_⟩, .nil⟩, .node ?_ fun c hc => ?_⟩
  · exact List.mem_append_left _ List.mem_cons_self
  · rw [hbody c hc]
    exact .node r hr hinst (by simp)
  · simp [hnames]
  · simp [hnames, NameSupply.Issued]
  · simp
  · simp [functionTo, Arg.asTree?, Arg.symbol, isNonterminal_lookalikes]
  · rw [hbody c hc]
    exact .node (by simp) (by simp)

/-- The function has half of the weight, and its body the share of its rule in the weight of both
rules and the variable. -/
theorem treeMass_functionTo
    (hroot : lookalikes.ruleForNode [] (functionTo name kind) =
      .ok ⟨"E", "lambda", some ["E"], 1, .binder ⟨"E", none, "y", none⟩⟩)
    (hbody : lookalikes.ruleForNode [parameter] (.node "E" name kind none) = .ok r) :
    lookalikes.treeMass [] (functionTo name kind) = 1 / 2 * (r.weight.toReal / 12) := by
  have hpos := proper_lookalikes.positive
  have hparameter : ∀ v ∈ [parameter], v.weight.Positive := by
    intro v hv
    obtain rfl := List.mem_singleton.mp hv
    exact ⟨10, by norm_num, rfl⟩
  have hone : (1 : Exact).toReal = 1 := rfl
  have hrootTotal : (lookalikes.visibleWeight "E" []).toReal = 2 := by
    rw [visibleWeight_eq_real hpos (by simp), visibleRules_lookalikes, allRules_lookalikes]
    norm_num [hone]
  have hbodyTotal : (lookalikes.visibleWeight "E" [parameter]).toReal = 12 := by
    rw [visibleWeight_eq_real hpos hparameter, visibleRules_lookalikes, allRules_lookalikes]
    norm_num [hone, parameter]
  have hleaf : lookalikes.treeMass [parameter] (.node "E" name kind none) = r.weight.toReal / 12 := by
    rw [treeMass_eq, nodeMass, hbody]
    simp [hbodyTotal]
  have hargs : (functionTo name kind).args = [.subtree (.node "E" name kind none)] := rfl
  rw [treeMass_eq, nodeMass, hroot, hargs]
  change (1 : Exact).toReal / (lookalikes.visibleWeight "E" []).toReal *
    ([.subtree (.node "E" name kind none)].map (lookalikes.argMass [parameter])).prod = _
  rw [hrootTotal, List.map_singleton, List.prod_singleton, argMass, hleaf]
  rfl

theorem derivable_functionTo (h : lookalikes.Generable ⟨1⟩ [] (functionTo name kind)) :
    lookalikes.Derivable ⟨1⟩ (functionTo name kind) := by
  refine ⟨h.toDerived, .node (by simp [functionTo]) fun c hc => ?_⟩
  obtain rfl : c = .node "E" name kind none := by simpa [functionTo] using hc
  exact .node (by simp) (by simp)

theorem logProbability_functionTo (h : lookalikes.Generable ⟨1⟩ [] (functionTo name kind))
    (hroot : lookalikes.ruleForNode [] (functionTo name kind) =
      .ok ⟨"E", "lambda", some ["E"], 1, .binder ⟨"E", none, "y", none⟩⟩)
    (hbody : lookalikes.ruleForNode [parameter] (.node "E" name kind none) = .ok r) :
    lookalikes.logProbability (functionTo name kind) =
      .ok (real (Real.log (1 / 2 * (r.weight.toReal / 12)))) := by
  have hweighted : lookalikes.Weighted ⟨1⟩ [] (functionTo name kind) := ⟨h.toDerived, by simp⟩
  rw [← treeMass_functionTo hroot hbody]
  exact (hweighted.logProbabilityIn_eq proper_lookalikes).2

/-- The function whose value is the constant. -/
noncomputable def constantFunction : Tree Exact := functionTo "y0" .plain

/-- The function that returns its argument. -/
noncomputable def identityFunction : Tree Exact := functionTo (NameSupply.nameOf 0) .variableUse

theorem generable_constantFunction : lookalikes.Generable ⟨1⟩ [] constantFunction :=
  generable_functionTo (List.mem_append_left _ (List.mem_cons_of_mem _ List.mem_cons_self))
    ⟨rfl, rfl⟩ rfl

theorem generable_identityFunction : lookalikes.Generable ⟨1⟩ [] identityFunction :=
  generable_functionTo (List.mem_append_right _ List.mem_cons_self) ⟨rfl, rfl⟩ rfl

theorem logProbability_identityFunction_ne :
    lookalikes.logProbability identityFunction ≠ lookalikes.logProbability constantFunction := by
  rw [identityFunction, constantFunction,
    logProbability_functionTo (r := parameter) generable_identityFunction rfl rfl,
    logProbability_functionTo (r := ⟨"E", "y0", none, 1, .plain⟩) generable_constantFunction rfl rfl]
  intro heq
  have hlog : Real.log (1 / 2 * (10 / 12)) = Real.log (1 / 2 * (1 / 12)) :=
    real.inj (Except.ok.inj heq)
  have hmass := Real.log_injOn_pos (by norm_num) (by norm_num) hlog
  norm_num at hmass

end Grammar

namespace Chain

variable {D : Type} {P : Problem Exact D} {c : Chain Exact D} {names names' : NameSupply}
  {y : Tree Exact}

/-- If a tree is alike to the current one and has another log-probability, a step that regenerates
may leave a score that is not current. -/
theorem exists_stale_step (hg : P.grammar.Proper) (hm : P.model.Nameless)
    (hkernel : P.proposer.kernel = .regeneration) (hsites : P.proposer.sites.Positive)
    (hproblem : c.problem = P) (hscore : c.ScoreIsCurrent)
    (hx : P.grammar.Derivable names c.current.tree) (hy : P.grammar.Derivable names' y)
    (hcomplete : P.grammar.Complete y) (hdepth : y.depth ≤ P.grammar.maxDepth)
    (hnt : y.nonterminal = c.current.tree.nonterminal) (halike : y.alike c.current.tree = true)
    (hdiffer : P.grammar.logProbability y ≠ P.grammar.logProbability c.current.tree)
    (tally : Tally) (records : List (Record Exact)) :
    ∃ stage', Rand.Yields ((step : Walk Exact (Chain Exact D) Bool) ⟨c, names, tally, records⟩)
      (.ok true, stage') ∧ ¬ stage'.subject.ScoreIsCurrent := by
  subst hproblem
  obtain ⟨t, fb, s', hmoved, hdt, hvar⟩ :=
    Proposer.exists_moved hg hkernel hsites hx hy hcomplete hdepth hnt
  -- a variant of the tree is printed and scored like it
  have halike' : t.alike c.current.tree = true := by
    rwa [Tree.alike, Tree.canonical_eq_of_variant hdt.fresh.nodup hy.fresh.nodup hvar]
  have hsame := Grammar.logProbability_eq hg.distinct hg.unreserved hdt hy.toDerived hvar
  obtain ⟨stage', hstep, hproblem, hcurrent⟩ :=
    exists_step_of_moved ⟨c, names, tally, records⟩ hmoved halike'
  refine ⟨stage', hstep, fun hstale => ?_⟩
  rw [ScoreIsCurrent, hproblem, hcurrent] at hstale
  exact hdiffer (hsame ▸ hm.logProbability_eq hstale hscore)

open Grammar

/-- The function whose value is the constant is taken for the one that returns its argument. From
the one, a step that regenerates may come to the other, and keeps the score of the tree it left. -/
theorem not_scoreIsCurrent_lookalikes :
    let P : Problem Exact ℝ := ⟨lookalikes, ⟨fun g t => g.logProbability t, fun _ d => real d, none⟩,
      [0], ⟨.regeneration, .uniform, Proposer.defaultAttempts⟩⟩
    P.grammar.DistinctSignatures ∧ P.grammar.PositiveWeights ∧ P.model.Nameless ∧
      P.grammar.Derivable ⟨1⟩ constantFunction ∧
      ∃ c made stage', Rand.Yields ((ofTree P constantFunction : Walk Exact Unit (Chain Exact ℝ))
          ⟨(), ⟨1⟩, ⟨0, 0⟩, []⟩) (.ok c, made) ∧ c.ScoreIsCurrent ∧
        Rand.Yields ((step : Walk Exact (Chain Exact ℝ) Bool)
          ⟨c, made.names, made.tally, made.records⟩) (.ok true, stage') ∧
        ¬ stage'.subject.ScoreIsCurrent := by
  intro P
  have hg := proper_lookalikes
  have hm : P.model.Nameless := ⟨fun _ _ => rfl, fun _ => rfl, rfl⟩
  have hx : lookalikes.Derivable ⟨1⟩ constantFunction :=
    derivable_functionTo generable_constantFunction
  have hy : lookalikes.Derivable ⟨1⟩ identityFunction :=
    derivable_functionTo generable_identityFunction
  have halike : identityFunction.alike constantFunction = true := rfl
  have hdepth : identityFunction.depth ≤ lookalikes.maxDepth := by
    simp [identityFunction, functionTo, Tree.depth, Tree.heightArgs, lookalikes]
  obtain ⟨score, hscore⟩ := hm.exists_logPosterior hg.distinct hg.unreserved hx.toDerived P.data
  have hmade := ofTree_apply (σ := Unit) hm.lasting hscore ⟨(), ⟨1⟩, ⟨0, 0⟩, []⟩
  let c : Chain Exact ℝ :=
    ⟨P, ⟨constantFunction, score⟩, .unit, Scalar.negInf, 0, 0, 0, 0, .empty historySize⟩
  let tally := (P.model.assess P.grammar constantFunction P.data ⟨0, 0⟩).2
  have hcurrent : c.ScoreIsCurrent := hscore
  obtain ⟨stage', hstep, hstale⟩ := exists_stale_step (P := P) (c := c) hg hm rfl trivial rfl hcurrent
    hx hy generable_identityFunction.complete hdepth rfl halike logProbability_identityFunction_ne
    tally []
  refine ⟨hg.distinct, hg.positive, hm, hx, c, ⟨(), ⟨1⟩, tally, []⟩, stage', ?_, hcurrent, hstep,
    hstale⟩
  rw [hmade]
  rfl

end Chain

end ScopedGrammar
