import ScopedGrammar.Proofs.Grammar.Plain
import ScopedGrammar.Proofs.Grammar.Distribution
import ScopedGrammar.Proofs.Grammar.Scoring

/-!
# The limit of the depth

Only generation looks at the limit of the depth. What is derived, what is complete and what scoring
says is the same under every limit, so a score can be understood as that of a grammar whose limit is
large enough for the tree at hand.
-/
namespace ScopedGrammar.Grammar

section Trees

variable {K : Type} {g : Grammar K} {names : NameSupply} {S : Scope K} {t : Tree K} {limit : ℕ}

/-- The grammar with another limit of the depth. -/
def upToDepth (g : Grammar K) (limit : ℕ) : Grammar K := { g with maxDepth := limit }

theorem Derives.upToDepth (h : g.Derives S t) : (g.upToDepth limit).Derives S t := by
  induction h with
  | node r hr hinst _ ih => exact .node r hr ⟨hinst.signature_eq, hinst.makes⟩ ih

theorem Complete.upToDepth (h : g.Complete t) : (g.upToDepth limit).Complete t := by
  induction h with
  | node hfilled _ ih => exact .node hfilled ih

theorem Derived.upToDepth (h : g.Derived names S t) : (g.upToDepth limit).Derived names S t :=
  ⟨h.derives.upToDepth, h.fresh, h.wellNamed⟩

theorem PlainNames.upToDepth (h : g.PlainNames) : (g.upToDepth limit).PlainNames :=
  ⟨h.rules, h.bound⟩

/-- Scoring does not look at the limit. -/
theorem logProbabilityIn_upToDepth [Scalar K] (g : Grammar K) (limit : ℕ) (S : Scope K)
    (t : Tree K) : (g.upToDepth limit).logProbabilityIn S t = g.logProbabilityIn S t := by
  have hnode : ∀ S t, (g.upToDepth limit).nodeLogProbability S t = g.nodeLogProbability S t :=
    fun _ _ => rfl
  exact logProbabilityIn_congr hnode S t

theorem logProbabilityAt_upToDepth [Scalar K] (g : Grammar K) (limit : ℕ) (t : Tree K) (p : Place) :
    (g.upToDepth limit).logProbabilityAt t p = g.logProbabilityAt t p := by
  simp only [logProbabilityAt, logProbabilityIn_upToDepth]

end Trees

variable {g : Grammar Exact} {names : NameSupply} {S : Scope Exact} {t : Tree Exact} {limit : ℕ}

theorem Proper.upToDepth (h : g.Proper) : (g.upToDepth limit).Proper :=
  ⟨h.distinct, h.unreserved, h.positive.rules, h.positive.uses⟩

theorem Generable.upToDepth (h : g.Generable names S t) :
    (g.upToDepth limit).Generable names S t :=
  ⟨h.toDerived.upToDepth, h.complete.upToDepth⟩

end ScopedGrammar.Grammar
