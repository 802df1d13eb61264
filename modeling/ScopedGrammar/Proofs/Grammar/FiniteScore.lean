import ScopedGrammar.Proofs.Grammar.Generated
import ScopedGrammar.Proofs.Scalar.Rounded

/-!
# Finite scores of trees

The score of a tree adds up two logarithms for each node, that of the weight of its rule and that of
the total weight of what is visible there. So it is finite, however numbers are rounded, if no such
total overflows and the tree is not larger than the limit of the arithmetic.
-/
namespace ScopedGrammar.Grammar

open Scalar

variable {K : Type} [Scalar K]

/-- The weights of rules and of uses of variables are positive finite numbers. -/
structure IsWeighted (g : Grammar K) : Prop where
  rules : ∀ r ∈ g.table.allRules, IsWeight r.weight
  uses : ∀ r ∈ g.table.allRules, ∀ spec, r.kind = .binder spec →
    IsWeight (spec.useWeight.getD g.variableWeight)

/-- A tree derived in a scope. The weights of what is visible at its nodes do not add up to
infinity. -/
structure Totaled (g : Grammar K) (names : NameSupply) (S : Scope K) (t : Tree K) : Prop
    extends g.Derived names S t where
  weights : ∀ v ∈ S, IsWeight v.weight
  totals : ∀ p n, t.get? p = some n →
    isFinite (g.visibleWeight n.nonterminal (S ++ t.variablesAbove p)) = true

variable {g : Grammar K} {names : NameSupply} {S : Scope K} {t c n : Tree K} {limit m : ℕ}
  {p : Place}

namespace Totaled

theorem at_place (h : g.Totaled names S t) (hg : g.IsWeighted) (hn : t.get? p = some n) :
    g.Totaled names (S ++ t.variablesAbove p) n := by
  refine ⟨h.toDerived.at_place hn, h.toDerived.forall_weight_above hg.uses h.weights hn,
    fun q k hk => ?_⟩
  have htotal := h.totals (p ++ q) k (by rw [Tree.get?_append, hn, Option.bind_some, hk])
  rwa [Tree.variablesAbove_append hn, ← List.append_assoc] at htotal

theorem child (h : g.Totaled names S t) (hg : g.IsWeighted) (hc : .subtree c ∈ t.args) :
    g.Totaled names (S.below t.kind) c := by
  obtain ⟨i, hi⟩ := List.getElem?_of_mem hc
  have hchild := Tree.child?_eq_some.mpr hi
  have hat := h.at_place (p := [i]) hg (by simpa using hchild)
  rwa [Tree.variablesAbove_cons hchild, Tree.variablesAbove_nil, List.append_nil,
    ← Scope.below_kind] at hat

theorem visibleWeight_isWeight (hK : Rounded K limit) (h : g.Totaled names S t)
    (hg : g.IsWeighted) {r : Rule K} (hr : r ∈ g.visibleRules t.nonterminal S) :
    IsWeight (g.visibleWeight t.nonterminal S) := by
  have hweights : ∀ q ∈ g.visibleRules t.nonterminal S, IsWeight q.weight :=
    forall_weight_visible hg.rules h.weights
  have htotal := h.totals [] t (Tree.get?_nil t)
  rw [Tree.variablesAbove_nil, List.append_nil] at htotal
  refine ⟨hK.sum_pos (fun w hw => ?_) ⟨r.weight, List.mem_map_of_mem hr, (hweights r hr).1⟩, htotal⟩
  obtain ⟨q, hq, rfl⟩ := List.mem_map.mp hw
  exact hK.le_of_lt (hweights q hq).1

theorem logSum_nodeLogProbability (hK : Rounded K limit) (h : g.Totaled names S t)
    (hg : g.IsWeighted) (hdist : g.DistinctSignatures) (hres : g.NoReservedNames) :
    ∃ lp, g.nodeLogProbability S t = .ok lp ∧ LogSum 2 lp := by
  obtain ⟨r, hr, -, hrule⟩ := h.exists_rule hdist hres
  refine ⟨Scalar.log r.weight - Scalar.log (g.visibleWeight t.nonterminal S), ?_, ?_⟩
  · rw [nodeLogProbability, hrule]
    rfl
  · have hweight := forall_weight_visible hg.rules h.weights r hr
    exact .sub (.log hweight) (.log (h.visibleWeight_isWeight hK hg hr))

end Totaled

theorem logSum_addArgs {as : List (Arg K)} {a : K} (ha : LogSum m a)
    (h : ∀ c, .subtree c ∈ as → ∃ lp, g.logProbabilityIn S c = .ok lp ∧
      LogSum (2 * c.countNodes) lp) :
    ∃ lp, g.addArgs S a as = .ok lp ∧ LogSum (m + 2 * Tree.countNodesArgs as) lp := by
  induction as generalizing m a with
  | nil => exact ⟨a, by rw [addArgs]; rfl, by simpa [Tree.countNodesArgs] using ha⟩
  | cons b as ih =>
    have hrest := fun c hc => h c (List.mem_cons_of_mem b hc)
    cases b with
    | subtree c =>
      obtain ⟨lp, hlp, hsum⟩ := h c List.mem_cons_self
      obtain ⟨total, htotal, htotalSum⟩ := ih (ha.add hsum) hrest
      refine ⟨total, ?_, htotalSum.mono ?_⟩
      · rw [addArgs, hlp]
        exact htotal
      · rw [Tree.countNodesArgs]
        omega
    | terminal s =>
      rw [addArgs, Tree.countNodesArgs]
      exact ih ha hrest

/-- The score of a tree adds up two logarithms for each node. -/
theorem Totaled.logSum_logProbabilityIn (hK : Rounded K limit) (h : g.Totaled names S t)
    (hg : g.IsWeighted) (hdist : g.DistinctSignatures) (hres : g.NoReservedNames) :
    ∃ lp, g.logProbabilityIn S t = .ok lp ∧ LogSum (2 * t.countNodes) lp := by
  induction t using Tree.induction generalizing S with
  | node nt name kind args? ih =>
    obtain ⟨a, hroot, hsum⟩ := h.logSum_nodeLogProbability hK hg hdist hres
    obtain ⟨lp, hlp, hall⟩ := logSum_addArgs hsum fun c hc => ih c hc (h.child hg hc)
    refine ⟨lp, ?_, hall.mono (by rw [Tree.countNodes_node]; omega)⟩
    cases args? with
    | none =>
      rw [logProbabilityIn, hroot]
      exact hlp
    | some as =>
      rw [logProbabilityIn, hroot]
      exact hlp

theorem Totaled.logSum_logProbabilityAt (hK : Rounded K limit) (h : g.Totaled names [] t)
    (hg : g.IsWeighted) (hdist : g.DistinctSignatures) (hres : g.NoReservedNames)
    (hn : t.get? p = some n) :
    ∃ lp, g.logProbabilityAt t p = .ok lp ∧ LogSum (2 * n.countNodes) lp := by
  rw [logProbabilityAt, subtreeAt, hn]
  exact (h.at_place hg hn).logSum_logProbabilityIn hK hg hdist hres

end ScopedGrammar.Grammar
