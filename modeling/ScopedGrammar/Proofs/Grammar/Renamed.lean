import ScopedGrammar.Proofs.Grammar.Alignment

/-!
# Log-probabilities do not see names

Derived trees that differ at most by the names of their variables have the same log-probability, and
not only up to rounding: the same weights are looked up and added in the same order.
-/
namespace ScopedGrammar.Grammar

variable {K : Type} [Scalar K] {g : Grammar K} {names names' : NameSupply} {S T : Scope K}
  {M : Matching} {s t : Tree K}

variable (hdist : g.DistinctSignatures) (hres : g.NoReservedNames)
include hdist hres

theorem nodeLogProbability_eq (hs : g.Derived names S s) (ht : g.Derived names' T t)
    (hal : Scope.Aligned M S T) (h : s.VariantOver M t) :
    g.nodeLogProbability S s = g.nodeLogProbability T t := by
  obtain ⟨r, hr, hinst, hrule⟩ := hs.exists_rule hdist hres
  obtain ⟨r', hr', hinst', hrule'⟩ := ht.exists_rule hdist hres
  obtain ⟨q, -, hsame, -, honly⟩ :=
    exists_counterpart hdist hs.wellNamed hal hr' hinst' ht.wellNamed.isVariableUse
  rw [h.nonterminal_eq] at hr
  obtain rfl := honly r hr s hinst h
  have hscore : ∀ (q : Rule K) (w : K), (Except.ok q : Except GrammarError (Rule K)) >>=
    (fun q => pure (Scalar.log q.weight - w)) = .ok (Scalar.log q.weight - w) := fun _ _ => rfl
  rw [nodeLogProbability, nodeLogProbability, hrule, hrule', hscore, hscore, h.nonterminal_eq,
    visibleWeight_eq hal.rules, hsame.weight_eq]

/-- Corresponding trees have the same log-probability in aligned scopes. -/
theorem logProbabilityIn_eq (hs : g.Derived names S s) (ht : g.Derived names' T t)
    (hal : Scope.Aligned M S T) (h : s.VariantOver M t) :
    g.logProbabilityIn S s = g.logProbabilityIn T t := by
  induction s using Tree.induction generalizing S T M t with
  | node nt name kind args? ih =>
    have hbelow := hs.aligned_below ht hal h.head
    rw [logProbabilityIn_eq_addArgs, logProbabilityIn_eq_addArgs,
      nodeLogProbability_eq hdist hres hs ht hal h]
    refine congrArg _ (funext fun lp => addArgs_congr ?_ lp)
    refine forall₂_imp_of_mem h.args fun a ha b hb hab => ?_
    cases hab with
    | terminal x => rfl
    | subtree hcd => exact congrArg some (ih _ ha (hs.child ha) (ht.child hb) hbelow hcd)

theorem logProbability_eq (hs : g.Derived names [] s) (ht : g.Derived names' [] t)
    (h : s.Variant t) : g.logProbability s = g.logProbability t :=
  logProbabilityIn_eq hdist hres hs ht (.nil Eq) h

end ScopedGrammar.Grammar
