import ScopedGrammar.Proofs.Grammar.Building
import ScopedGrammar.Proofs.Grammar.Lookup
import ScopedGrammar.Proofs.Grammar.Scoring

/-!
# Renormalisation

Renormalising divides the weights of the rules in each row by their total. Nothing but weights
changes, so the rule of a node is found as before. The total of a row is then `1`, so there is
nothing left to divide. A node counts the weight of its rule against the total of its row and of the
variables in scope that compete with it. Where there is no such variable, both are divided by the
same number, and the node counts the same as before.
-/
namespace ScopedGrammar

variable {K : Type}

theorem RuleTable.eq_of_rows_eq {s t : RuleTable K} (hrows : s.rows = t.rows)
    (hindex : s.index = t.index) : s = t := by
  cases s
  cases t
  cases hrows
  cases hindex
  rfl

/-- The total of the weights of some rules. -/
def totalWeight [Scalar K] (rules : List (Rule K)) : K := Scalar.sum (rules.map (·.weight))

/-- The rule with its weight divided by a total, if that is positive. -/
def Rule.outOf [Scalar K] (total : K) (r : Rule K) : Rule K :=
  { r with weight := if Scalar.lt 0 total then r.weight / total else r.weight }

/-- The rules of a row with their weights divided by the total. -/
def rescale [Scalar K] (rules : List (Rule K)) : List (Rule K) :=
  rules.map (·.outOf (totalWeight rules))

namespace Grammar

section Lookup

variable [Scalar K] (g : Grammar K) (S : Scope K) (t : Tree K)

theorem rows_renormalize : g.renormalize.table.rows = g.table.rows.mapRow rescale := rfl

theorem rulesFor_renormalize (nt : String) :
    g.renormalize.table.rulesFor nt = rescale (g.table.rulesFor nt) := by
  rw [RuleTable.rulesFor, rows_renormalize, Rows.rulesFor_mapRow (by rfl)]
  rfl

theorem withSignature_renormalize (s : Signature) : g.renormalize.table.withSignature s =
    (g.table.withSignature s).map (·.outOf (totalWeight (g.table.rulesFor s.nonterminal))) := by
  rw [RuleTable.withSignature_eq, RuleTable.withSignature_eq, rulesFor_renormalize, rescale,
    List.filter_map]
  rfl

/-- The rule of a node is the same but for its weight, and so is the error if there is none. -/
theorem map_form_ruleForNode_renormalize :
    (g.renormalize.ruleForNode S t).map Rule.form = (g.ruleForNode S t).map Rule.form := by
  have hforms :
      (g.renormalize.table.withSignature t.signature ++ S.withSignature t.signature).map Rule.form =
        (g.table.withSignature t.signature ++ S.withSignature t.signature).map Rule.form := by
    rw [withSignature_renormalize, List.map_append, List.map_append, List.map_map]
    rfl
  have hlength := congrArg List.length hforms
  simp only [List.length_map] at hlength
  rw [ruleForNode, ruleForNode]
  generalize g.renormalize.table.withSignature t.signature ++ S.withSignature t.signature = found'
    at hforms hlength
  generalize g.table.withSignature t.signature ++ S.withSignature t.signature = found
    at hforms hlength
  split
  · rfl
  · rcases found with _ | ⟨r, _ | ⟨q, found⟩⟩ <;>
      rcases found' with _ | ⟨r', _ | ⟨q', found'⟩⟩ <;> simp_all [Except.map]

/-- Where no variable competes, the rule of a node is the one before with its weight divided. -/
theorem ruleForNode_renormalize (hfree : S.rulesOf t.nonterminal = []) :
    g.renormalize.ruleForNode S t =
      (g.ruleForNode S t).map (·.outOf (totalWeight (g.table.rulesFor t.nonterminal))) := by
  have hscope : S.withSignature t.signature = [] := by
    refine List.filter_eq_nil_iff.mpr fun v hv hsignature => ?_
    have hnt : v.nonterminal = t.nonterminal :=
      congrArg Signature.nonterminal (of_decide_eq_true hsignature)
    exact List.filter_eq_nil_iff.mp hfree v hv (beq_iff_eq.mpr hnt)
  rw [ruleForNode, ruleForNode, withSignature_renormalize, hscope, List.append_nil, List.append_nil]
  split
  · rfl
  · rcases g.table.withSignature t.signature with _ | ⟨r, _ | ⟨q, found⟩⟩
    · rfl
    · rfl
    · simp [Except.map]

end Lookup

section Totals

open Exact

variable {rules : List (Rule Exact)} {r : Rule Exact}

theorem outOf_real {z : ℝ} (hz : 0 < z) (r : Rule Exact) :
    r.outOf (real z) = { r with weight := r.weight / real z } := by
  rw [Rule.outOf, if_pos ((zero_lt_real z).mpr hz)]

theorem exists_totalWeight (hpos : ∀ r ∈ rules, r.weight.Positive) (hne : rules ≠ []) :
    ∃ z, 0 < z ∧ z = (rules.map (·.weight.toReal)).sum ∧ totalWeight rules = real z := by
  refine ⟨_, ?_, rfl, ?_⟩
  · refine List.sum_pos _ (fun x hx => ?_) (by simpa using hne)
    obtain ⟨r, hr, rfl⟩ := List.mem_map.mp hx
    exact (hpos r hr).toReal_pos
  · rw [totalWeight, sum_eq_real, List.map_map]
    · rfl
    · intro w hw
      obtain ⟨r, hr, rfl⟩ := List.mem_map.mp hw
      exact (hpos r hr).nonneg

theorem mem_zip_rescale {x : Rule Exact × Rule Exact} (hx : x ∈ rules.zip (rescale rules)) :
    x.1 ∈ rules ∧ x.2 = x.1.outOf (totalWeight rules) := by
  rw [rescale, ← List.map_id rules, List.map_map, List.zip_map'] at hx
  obtain ⟨r, hr, rfl⟩ := List.mem_map.mp hx
  exact ⟨hr, by simp⟩

theorem positive_outOf {z : ℝ} (hz : 0 < z) (hr : r.weight.Positive) :
    (r.outOf (real z)).weight.Positive := by
  obtain ⟨x, hx, hweight⟩ := hr
  rw [outOf_real hz, hweight, real_div hz.ne']
  exact ⟨x / z, div_pos hx hz, rfl⟩

theorem positive_rescale (hpos : ∀ r ∈ rules, r.weight.Positive) :
    ∀ r ∈ rescale rules, r.weight.Positive := by
  intro r' hr'
  obtain ⟨r, hr, rfl⟩ := List.mem_map.mp hr'
  obtain ⟨z, hz, -, htotal⟩ := exists_totalWeight hpos (List.ne_nil_of_mem hr)
  rw [htotal]
  exact positive_outOf hz (hpos r hr)

theorem totalWeight_rescale (hpos : ∀ r ∈ rules, r.weight.Positive) (hne : rules ≠ []) :
    totalWeight (rescale rules) = 1 := by
  obtain ⟨z, hz, hsum, htotal⟩ := exists_totalWeight hpos hne
  have hweights : (rescale rules).map (·.weight) =
      rules.map fun r => real (r.weight.toReal * z⁻¹) := by
    rw [rescale, htotal, List.map_map]
    refine List.map_congr_left fun r hr => ?_
    obtain ⟨x, -, hweight⟩ := hpos r hr
    rw [Function.comp_apply, outOf_real hz, hweight, real_div hz.ne', toReal_real, div_eq_mul_inv]
  rw [totalWeight, hweights, sum_map_real, List.sum_map_mul_right, ← hsum, mul_inv_cancel₀ hz.ne',
    one_eq]

theorem rescale_rescale (hpos : ∀ r ∈ rules, r.weight.Positive) :
    rescale (rescale rules) = rescale rules := by
  rcases eq_or_ne rules [] with rfl | hne
  · rfl
  · rw [rescale, totalWeight_rescale hpos hne]
    conv_rhs => rw [← List.map_id (rescale rules)]
    refine List.map_congr_left fun r hr => ?_
    obtain ⟨x, -, hweight⟩ := positive_rescale hpos r hr
    rw [one_eq, outOf_real one_pos, hweight, real_div one_ne_zero, div_one, ← hweight]
    rfl

/-- Weights keep their ratios. -/
theorem outOf_div_outOf {z : ℝ} (hz : 0 < z) {q : Rule Exact} (hr : r.weight.Positive)
    (hq : q.weight.Positive) :
    (r.outOf (real z)).weight / (q.outOf (real z)).weight = r.weight / q.weight := by
  obtain ⟨x, -, hx⟩ := hr
  obtain ⟨y, hy, hy'⟩ := hq
  rw [outOf_real hz, outOf_real hz, hx, hy', real_div hz.ne', real_div hz.ne',
    real_div (div_pos hy hz).ne', real_div hy.ne', div_div_div_cancel_right₀ hz.ne']

end Totals

section Scores

open Exact

variable {g : Grammar Exact} {S : Scope Exact} {t : Tree Exact}

/-- The weights of the fixed rules are positive. -/
def PositiveRules (g : Grammar Exact) : Prop := ∀ r ∈ g.table.allRules, r.weight.Positive

theorem PositiveRules.rulesFor (h : g.PositiveRules) {nt : String} :
    ∀ r ∈ g.table.rulesFor nt, r.weight.Positive :=
  fun r hr => h r (mem_allRules_of_mem_rulesFor hr)

theorem PositiveRules.push (h : g.PositiveRules) {r : Rule Exact} (hr : r.isVariableUse = false) :
    (g.push r hr).1.PositiveRules := by
  rw [Grammar.push]
  split
  · next hvalid =>
    intro q hq
    rcases (RuleTable.mem_allRules_insert hr).mp hq with hq | rfl
    · exact h q hq
    · exact validWeight_iff.mp hvalid
  · exact h

theorem PositiveRules.renormalize (h : g.PositiveRules) : g.renormalize.PositiveRules := by
  intro r hr
  have hrow := RuleTable.mem_rulesFor_of_mem_allRules hr
  rw [rulesFor_renormalize] at hrow
  exact positive_rescale h.rulesFor r hrow

/-- No call lets in a weight that is not positive. -/
theorem PositiveRules.make (h : g.PositiveRules) (c : Call Exact) : (c.make g).PositiveRules := by
  cases c with
  | addRule => exact h.push rfl
  | addBinder _ _ _ _ spec =>
    have hmention : PositiveRules { g with table := g.table.mention spec.boundType } :=
      fun r hr => h r (RuleTable.allRules_mention .. ▸ hr)
    exact hmention.push rfl
  | renormalize => exact h.renormalize

theorem PositiveRules.after (h : g.PositiveRules) (calls : List (Call Exact)) :
    (after calls g).PositiveRules := by
  induction calls generalizing g with
  | nil => exact h
  | cons c calls ih => exact ih (h.make c)

theorem PositiveRules.empty (start : String) :
    (Grammar.empty start : Grammar Exact).PositiveRules := by
  simp [PositiveRules, Grammar.empty, RuleTable.empty, RuleTable.allRules]

/-- Where everything has been divided, nothing is left to divide. -/
theorem renormalize_renormalize (h : g.PositiveRules) :
    g.renormalize.renormalize = g.renormalize := by
  have hrows : g.renormalize.renormalize.table.rows = g.renormalize.table.rows := by
    rw [rows_renormalize, rows_renormalize, Rows.mapRow, Rows.mapRow, List.map_map]
    refine List.map_congr_left fun row hrow => Prod.ext rfl (rescale_rescale fun r hr => ?_)
    exact h r (List.mem_flatMap.mpr ⟨row, hrow, hr⟩)
  have htable := RuleTable.eq_of_rows_eq hrows rfl
  exact congrArg (fun table => { g with table }) htable

/-- Where no variable competes, only the fixed rules of a nonterminal count. -/
theorem visibleWeight_eq_totalWeight (g : Grammar Exact) {nt : String} (hfree : S.rulesOf nt = []) :
    g.visibleWeight nt S = totalWeight (g.table.rulesFor nt) := by
  rw [visibleWeight, visibleRules, hfree, List.append_nil, totalWeight]

/-- A node counts the same if no variable competes with its rule. -/
theorem nodeLogProbability_renormalize (h : g.PositiveRules)
    (hfree : S.rulesOf t.nonterminal = []) :
    g.renormalize.nodeLogProbability S t = g.nodeLogProbability S t := by
  rw [nodeLogProbability, nodeLogProbability, ruleForNode_renormalize _ _ _ hfree,
    visibleWeight_eq_totalWeight _ hfree, visibleWeight_eq_totalWeight _ hfree,
    rulesFor_renormalize]
  cases hrule : g.ruleForNode S t with
  | error e => rfl
  | ok r =>
    have hr : r ∈ g.table.rulesFor t.nonterminal := by
      have hvisible := mem_visibleRules_of_ruleForNode hrule
      rwa [visibleRules, hfree, List.append_nil] at hvisible
    have hne := List.ne_nil_of_mem hr
    obtain ⟨x, hx, hweight⟩ := h.rulesFor r hr
    obtain ⟨z, hz, -, htotal⟩ := exists_totalWeight h.rulesFor hne
    have hlog : Scalar.log (real (x / z)) - Scalar.log 1 =
        Scalar.log (real x) - Scalar.log (real z) := by
      rw [one_eq, log_real (div_pos hx hz), log_real one_pos, log_real hx, log_real hz, real_sub,
        real_sub, Real.log_one, sub_zero, Real.log_div hx.ne' hz.ne']
    rw [totalWeight_rescale h.rulesFor hne, htotal]
    change Except.ok (Scalar.log (r.outOf (real z)).weight - Scalar.log 1) =
      Except.ok (Scalar.log r.weight - Scalar.log (real z))
    rw [outOf_real hz, hweight, real_div hz.ne', hlog]

theorem failure?_logProbabilityIn_renormalize [Scalar K] (g : Grammar K) (S : Scope K)
    (t : Tree K) :
    failure? (g.renormalize.logProbabilityIn S t) = failure? (g.logProbabilityIn S t) := by
  rw [failure?_logProbabilityIn, failure?_logProbabilityIn]
  refine congrFun (congrArg List.findSome? (funext fun x => ?_)) _
  rw [← failure?_map Rule.form, map_form_ruleForNode_renormalize, failure?_map]

end Scores

/-- Renormalising a grammar that calls have made divides the weights of every row by their total and
changes nothing else. So the rules of a nonterminal weigh `1` in all and keep their ratios, and
another time nothing changes. The rule of a node is found as before, up to its weight, or the same
error is given. A tree without a score keeps its error, and a tree keeps its score if no variable
in the scope of a node competes with the rules of the node. -/
theorem renormalize_after (start : String) (calls : List (Call Exact)) (variableWeight : Exact)
    (maxDepth : ℕ) :
    let g : Grammar Exact := { after calls (.empty start) with variableWeight, maxDepth }
    (∀ nt, (g.renormalize.table.rulesFor nt).map Rule.form = (g.table.rulesFor nt).map Rule.form ∧
      (g.table.rulesFor nt ≠ [] →
        Scalar.sum ((g.renormalize.table.rulesFor nt).map (·.weight)) = 1) ∧
      ∀ x ∈ (g.table.rulesFor nt).zip (g.renormalize.table.rulesFor nt),
        ∀ y ∈ (g.table.rulesFor nt).zip (g.renormalize.table.rulesFor nt),
          x.2.weight / y.2.weight = x.1.weight / y.1.weight) ∧
    g.renormalize.renormalize = g.renormalize ∧
    (∀ S t, (g.renormalize.ruleForNode S t).map Rule.form = (g.ruleForNode S t).map Rule.form) ∧
    (∀ S t e, g.renormalize.logProbabilityIn S t = .error e ↔ g.logProbabilityIn S t = .error e) ∧
    ∀ S t, (∀ p n T, (p, n, T) ∈ t.nodesInScope S → T.rulesOf n.nonterminal = []) →
      g.renormalize.logProbabilityIn S t = g.logProbabilityIn S t := by
  intro g
  have hg : g.PositiveRules := (PositiveRules.empty start).after calls
  refine ⟨fun nt => ⟨?_, fun hne => ?_, ?_⟩, renormalize_renormalize hg,
    g.map_form_ruleForNode_renormalize, fun S t e => ?_, fun S t hfree => ?_⟩
  · exact g.table.forms_mapWeights _ nt
  · rw [rulesFor_renormalize]
    exact totalWeight_rescale hg.rulesFor hne
  · intro x hx y hy
    rw [rulesFor_renormalize] at hx hy
    obtain ⟨hx, heqx⟩ := mem_zip_rescale hx
    obtain ⟨hy, heqy⟩ := mem_zip_rescale hy
    obtain ⟨z, hz, -, htotal⟩ := exists_totalWeight hg.rulesFor (List.ne_nil_of_mem hx)
    rw [heqx, heqy, htotal]
    exact outOf_div_outOf hz (hg.rulesFor _ hx) (hg.rulesFor _ hy)
  · rw [← failure?_eq_some, failure?_logProbabilityIn_renormalize, failure?_eq_some]
  · exact logProbabilityIn_congr_nodes fun p n T hn =>
      nodeLogProbability_renormalize hg (hfree p n T hn)

section Numbers

open Exact

/-- Functions of a number, and a constant. A number can only be the variable of a function. -/
noncomputable def numberLambdas : Grammar Exact where
  start := "E"
  table :=
    ((RuleTable.empty.mention "N").insert
      ⟨"E", "lambda", some ["E"], 1, .binder ⟨"N", none, "y", none⟩⟩ rfl).insert
      ⟨"E", "x", none, real 3, .plain⟩ rfl
  variableWeight := Scalar.ofNat 10
  maxDepth := 512

/-- The function of a number that returns the constant. -/
noncomputable def numberLambda : Tree Exact :=
  .node "E" "lambda"
    (.binder ⟨"N", NameSupply.nameOf 0, none, Scalar.ofNat 10, .variableUse "y"⟩)
    (some [.subtree (.node "E" "x" .plain none)])

theorem after_eq_numberLambdas :
    after [.addBinder "E" "lambda" (some ["E"]) 1 ⟨"N", none, "y", none⟩,
      .addRule "E" "x" none (real 3)] (.empty "E") = numberLambdas := by
  have hone : validWeight (1 : Exact) = true := validWeight_iff.mpr ⟨1, one_pos, rfl⟩
  have hthree : validWeight (real 3) = true := validWeight_iff.mpr ⟨3, three_pos, rfl⟩
  simp only [after, List.foldl_cons, List.foldl_nil, Call.make, addBinder, addRule, push, hone,
    hthree, if_true]
  rfl

theorem logProbabilityIn_numberLambda : numberLambdas.logProbabilityIn [] numberLambda =
    .ok (Scalar.log 1 - Scalar.log (Scalar.sum [1, real 3]) +
      (Scalar.log (real 3) - Scalar.log (Scalar.sum [1, real 3]))) := by rfl

/-- The rules of functions weigh `1` in all afterwards. The variable is in scope at the constant,
but it is a number and the constant is not, so the function keeps its score. -/
theorem renormalize_after_numberLambda :
    let g := numberLambdas
    let t := numberLambda
    g.table.rulesFor "E" ≠ [] ∧
      Scalar.sum ((g.renormalize.table.rulesFor "E").map (·.weight)) = 1 ∧
      (∃ n T, ([0], n, T) ∈ t.nodesInScope [] ∧ T ≠ []) ∧
      (∀ p n T, (p, n, T) ∈ t.nodesInScope [] → T.rulesOf n.nonterminal = []) ∧
      (∃ x, g.logProbabilityIn [] t = .ok (real x)) ∧
      g.renormalize.logProbabilityIn [] t = g.logProbabilityIn [] t := by
  intro g t
  obtain ⟨hrows, -, -, -, hscore⟩ := renormalize_after "E"
    [.addBinder "E" "lambda" (some ["E"]) 1 ⟨"N", none, "y", none⟩, .addRule "E" "x" none (real 3)]
    (Scalar.ofNat 10) 512
  rw [after_eq_numberLambdas] at hrows hscore
  have hne : g.table.rulesFor "E" ≠ [] := List.cons_ne_nil _ _
  have hfree : ∀ p n T, (p, n, T) ∈ t.nodesInScope [] → T.rulesOf n.nonterminal = [] := by
    intro p n T hn
    rcases List.mem_cons.mp hn with heq | hn
    · cases heq
      rfl
    · cases List.mem_singleton.mp hn
      rfl
  have hscope : ∃ n T, ([0], n, T) ∈ t.nodesInScope [] ∧ T ≠ [] :=
    ⟨_, _, List.mem_cons_of_mem _ List.mem_cons_self, List.cons_ne_nil _ _⟩
  have htotal : Scalar.sum [1, real 3] = real (0 + 1 + 3) := rfl
  have hreal : g.logProbabilityIn [] t = .ok (real (Real.log 1 - Real.log (0 + 1 + 3) +
      (Real.log 3 - Real.log (0 + 1 + 3)))) := by
    rw [logProbabilityIn_numberLambda, htotal, one_eq, log_real one_pos, log_real three_pos,
      log_real (by norm_num), real_sub, real_sub, real_add]
  exact ⟨hne, (hrows "E").2.1 hne, hscope, hfree, ⟨_, hreal⟩, hscore [] t hfree⟩

end Numbers

end Grammar

end ScopedGrammar
