import Mathlib.Algebra.Order.BigOperators.Group.List
import ScopedGrammar.Proofs.Grammar.Freshness
import ScopedGrammar.Proofs.Scalar.LogMass

/-!
# The mass of a tree

The mass of a tree is the product, over its nodes, of the weight of the rule of the node relative
to the total weight that is visible there. It is positive, and scoring computes its logarithm.
-/
namespace ScopedGrammar

open Exact

namespace Grammar

/-- The weights of rules and of uses of variables are positive numbers. -/
structure PositiveWeights (g : Grammar Exact) : Prop where
  rules : ∀ r ∈ g.table.allRules, r.weight.Positive
  uses : ∀ r ∈ g.table.allRules, ∀ spec, r.kind = .binder spec →
    (spec.useWeight.getD g.variableWeight).Positive

variable (g : Grammar Exact)

/-- The probability that the root of a tree is drawn in a scope. -/
noncomputable def nodeMass (scope : Scope Exact) (t : Tree Exact) : ℝ :=
  match g.ruleForNode scope t with
  | .ok r => r.weight.toReal / (g.visibleWeight t.nonterminal scope).toReal
  | .error _ => 0

/-- The probability that every node of a tree is drawn. -/
noncomputable def treeMass (scope : Scope Exact) (t : Tree Exact) : ℝ :=
  ((t.nodesInScope scope).map fun x => g.nodeMass x.2.2 x.2.1).prod

/-- The probability that an argument is filled in as it is; there is no choice for a terminal. -/
noncomputable def argMass (scope : Scope Exact) : Arg Exact → ℝ
  | .subtree t => g.treeMass scope t
  | .terminal _ => 1

variable {g}

theorem prod_nodesInScopeFrom (scope : Scope Exact) (as : List (Arg Exact)) (i : ℕ) :
    ((Tree.nodesInScopeFrom scope i as).map fun x => g.nodeMass x.2.2 x.2.1).prod =
      (as.map (g.argMass scope)).prod := by
  induction as generalizing i with
  | nil => rfl
  | cons a as ih =>
    cases a with
    | subtree t =>
      simp [Tree.nodesInScopeFrom, argMass, treeMass, ih, Function.comp_def]
    | terminal s => simp [Tree.nodesInScopeFrom, argMass, ih]

theorem treeMass_eq (scope : Scope Exact) (t : Tree Exact) :
    g.treeMass scope t =
      g.nodeMass scope t * (t.args.map (g.argMass (scope.below t.kind))).prod := by
  cases t
  rw [treeMass, Tree.nodesInScope_node, List.map_cons, List.prod_cons, prod_nodesInScopeFrom]
  rfl

/-- What the theory of probabilities asks of a grammar: fixed rules that can be told apart and have
names of their own, and positive weights. -/
structure Proper (g : Grammar Exact) : Prop where
  distinct : g.DistinctSignatures
  unreserved : g.NoReservedNames
  positive : g.PositiveWeights

/-- A tree derived in a scope whose variables are used with positive weight. -/
structure Weighted (g : Grammar Exact) (names : NameSupply) (scope : Scope Exact)
    (t : Tree Exact) : Prop extends g.Derived names scope t where
  positive : ∀ v ∈ scope, v.weight.Positive

variable {scope S T : Scope Exact} {nt : String} {names : NameSupply} {s t c n : Tree Exact}

theorem PositiveWeights.visible (h : g.PositiveWeights) (hscope : ∀ v ∈ scope, v.weight.Positive) :
    ∀ r ∈ g.visibleRules nt scope, r.weight.Positive :=
  forall_weight_visible h.rules hscope

theorem PositiveWeights.visible_nonneg (h : g.PositiveWeights)
    (hscope : ∀ v ∈ scope, v.weight.Positive) :
    ∀ w ∈ (g.visibleRules nt scope).map (·.weight), w.Nonneg := by
  intro w hw
  obtain ⟨r, hr, rfl⟩ := List.mem_map.mp hw
  exact (h.visible hscope r hr).nonneg

theorem visibleWeight_eq_real (h : g.PositiveWeights) (hscope : ∀ v ∈ scope, v.weight.Positive) :
    g.visibleWeight nt scope = real ((g.visibleRules nt scope).map fun r => r.weight.toReal).sum := by
  rw [visibleWeight, sum_eq_real (h.visible_nonneg hscope), List.map_map]
  rfl

theorem visibleWeight_pos (h : g.PositiveWeights) (hscope : ∀ v ∈ scope, v.weight.Positive)
    {r : Rule Exact} (hr : r ∈ g.visibleRules nt scope) :
    0 < (g.visibleWeight nt scope).toReal := by
  rw [visibleWeight_eq_real h hscope, toReal_real]
  refine (h.visible hscope r hr).toReal_pos.trans_le ?_
  refine List.single_le_sum (fun w hw => ?_) _ (List.mem_map_of_mem hr)
  obtain ⟨q, hq, rfl⟩ := List.mem_map.mp hw
  exact (h.visible hscope q hq).toReal_pos.le

theorem Makes.positive_introduced {r v : Rule Exact} {kind : NodeKind Exact}
    (h : g.Makes r kind) (hr : r ∈ g.visibleRules nt scope) (hpos : g.PositiveWeights)
    (hscope : ∀ v ∈ scope, v.isVariableUse = true) (hv : kind.introduced? = some v) :
    v.weight.Positive := by
  obtain ⟨hr, spec, hspec, heq⟩ := h.exists_binder hr hscope hv
  rw [heq]
  exact hpos.uses r hr spec hspec

namespace Weighted

theorem child (h : g.Weighted names scope t) (hpos : g.PositiveWeights)
    (hc : .subtree c ∈ t.args) : g.Weighted names (scope.below t.kind) c :=
  ⟨h.toDerived.child hc, h.toDerived.forall_weight_below hpos.uses h.positive⟩

theorem at_place (h : g.Weighted names scope t) (hpos : g.PositiveWeights) {p : Place}
    (hn : t.get? p = some n) : g.Weighted names (scope ++ t.variablesAbove p) n :=
  ⟨h.toDerived.at_place hn, h.toDerived.forall_weight_above hpos.uses h.positive hn⟩

/-- The rule of the root, and the probability that it is drawn. -/
theorem exists_nodeMass (h : g.Weighted names scope t) (hg : g.Proper) :
    ∃ r ∈ g.visibleRules t.nonterminal scope, g.IsInstance r t ∧
      g.nodeMass scope t = r.weight.toReal / (g.visibleWeight t.nonterminal scope).toReal ∧
      g.nodeLogProbability scope t = .ok (real (Real.log (g.nodeMass scope t))) ∧
      0 < g.nodeMass scope t := by
  obtain ⟨r, hr, hinst, hrule⟩ := h.exists_rule hg.distinct hg.unreserved
  have hmass : g.nodeMass scope t =
      r.weight.toReal / (g.visibleWeight t.nonterminal scope).toReal := by
    rw [nodeMass, hrule]
  have htotal := visibleWeight_pos hg.positive h.positive hr
  have hweight := hg.positive.visible h.positive r hr
  have hratio := div_pos hweight.toReal_pos htotal
  refine ⟨r, hr, hinst, hmass, ?_, hmass ▸ hratio⟩
  have hreal : g.visibleWeight t.nonterminal scope = real _ :=
    visibleWeight_eq_real hg.positive h.positive
  rw [nodeLogProbability, hrule, hmass]
  change Except.ok (Scalar.log r.weight - Scalar.log (g.visibleWeight t.nonterminal scope)) = _
  rw [hreal, ← hweight.nonneg.real_toReal, log_real_eq_logOf hweight.toReal_pos,
    log_real_eq_logOf (by simpa [hreal] using htotal), toReal_real, toReal_real,
    logOf_sub hweight.toReal_pos.le (by simpa [hreal] using htotal),
    logOf_pos (by simpa [hreal] using hratio)]

end Weighted

theorem addArgs_eq {as : List (Arg Exact)} {a : ℝ} (ha : 0 < a)
    (h : ∀ t, .subtree t ∈ as → 0 < g.treeMass scope t ∧
      g.logProbabilityIn scope t = .ok (real (Real.log (g.treeMass scope t)))) :
    0 < a * (as.map (g.argMass scope)).prod ∧ g.addArgs scope (real (Real.log a)) as =
      .ok (real (Real.log (a * (as.map (g.argMass scope)).prod))) := by
  induction as generalizing a with
  | nil => exact ⟨by simpa using ha, by simp [addArgs]; rfl⟩
  | cons b as ih =>
    have hrest := fun t ht => h t (List.mem_cons_of_mem b ht)
    cases b with
    | subtree t =>
      obtain ⟨hpos, hscore⟩ := h t (by simp)
      have := ih (mul_pos ha hpos) hrest
      rw [List.map_cons, List.prod_cons, argMass, ← mul_assoc, addArgs, hscore]
      refine ⟨this.1, ?_⟩
      rw [← this.2, Real.log_mul ha.ne' hpos.ne', ← real_add]
      rfl
    | terminal s => simpa [argMass, addArgs] using ih ha hrest

/-- Scoring computes the logarithm of the mass, which is positive. -/
theorem Weighted.logProbabilityIn_eq (h : g.Weighted names scope t) (hg : g.Proper) :
    0 < g.treeMass scope t ∧
      g.logProbabilityIn scope t = .ok (real (Real.log (g.treeMass scope t))) := by
  induction t using Tree.induction generalizing scope with
  | node nt name kind args? ih =>
    obtain ⟨r, -, -, -, hscore, hpos⟩ := h.exists_nodeMass hg
    have hargs := addArgs_eq hpos fun c hc => ih c hc (h.child hg.positive hc)
    rw [treeMass_eq]
    refine ⟨hargs.1, ?_⟩
    cases args? with
    | none => rw [logProbabilityIn, hscore]; simp
    | some as =>
      rw [logProbabilityIn, hscore]
      exact hargs.2

end Grammar

end ScopedGrammar
