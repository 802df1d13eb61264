import ScopedGrammar.Proofs.Grammar.Derivation
import ScopedGrammar.Proofs.Grammar.Traversal

/-!
# Trees without a score

Scoring fails at the first node in pre-order that no visible rule made, or more than one, and with
the error of that node; a tree has a score if there is no such node. A variable that escapes from
its binder is a use that no rule in scope made, so no tree with one has a score, and an error that
speaks of a scope names a variable that did escape. All this holds of any tree: nothing is asked
about how the names of the binders relate.
-/
namespace ScopedGrammar

section Failure

variable {ε α β : Type}

/-- The error of a computation that failed. -/
def failure? : Except ε α → Option ε
  | .ok _ => none
  | .error e => some e

@[simp] theorem failure?_ok (a : α) : failure? (.ok a : Except ε α) = none := rfl

@[simp] theorem failure?_pure (a : α) : failure? (pure a : Except ε α) = none := rfl

@[simp] theorem failure?_error (e : ε) : failure? (.error e : Except ε α) = some e := rfl

theorem failure?_map (f : α → β) (x : Except ε α) : failure? (x.map f) = failure? x := by
  cases x <;> rfl

theorem failure?_eq_some {x : Except ε α} {e : ε} : failure? x = some e ↔ x = .error e := by
  cases x <;> simp

theorem failure?_eq_none {x : Except ε α} : failure? x = none ↔ ∃ a, x = .ok a := by
  cases x <;> simp

/-- A computation fails with its first failure, where that of the rest depends on no value. -/
theorem failure?_bind (x : Except ε α) {f : α → Except ε β} {rest : Option ε}
    (h : ∀ a, failure? (f a) = rest) : failure? (x >>= f) = (failure? x).or rest := by
  cases x with
  | ok a => exact h a
  | error e => rfl

end Failure

theorem Scope.binds_append_eq_false {K : Type} {S T : Scope K} {v : String} :
    Scope.binds (S ++ T) v = false ↔ S.binds v = false ∧ v ∉ T.map (·.name) := by
  simp [Scope.binds]

namespace Grammar

variable {K : Type} {g : Grammar K} {scope : Scope K} {t : Tree K}

/-- The use of a variable that is not in force is what a node is reported for with that error. -/
theorem ruleForNode_eq_scopeViolation {v : String} :
    g.ruleForNode scope t = .error (.scopeViolation v) ↔
      t.kind = .variableUse ∧ t.name = v ∧ scope.binds v = false := by
  rw [ruleForNode]
  split
  · rename_i h
    rw [Bool.and_eq_true, isVariableUse_iff_kind, Bool.not_eq_true'] at h
    simp only [Except.error.injEq, GrammarError.scopeViolation.injEq]
    exact ⟨by rintro rfl; exact ⟨h.1, rfl, h.2⟩, fun hv => hv.2.1⟩
  · rename_i h
    rw [Bool.and_eq_true, isVariableUse_iff_kind, Bool.not_eq_true'] at h
    refine ⟨fun hv => ?_, by rintro ⟨hkind, rfl, hv⟩; exact absurd ⟨hkind, hv⟩ h⟩
    split at hv <;> cases hv

/-- The rule that is found for a node is visible. -/
theorem mem_visibleRules_of_ruleForNode {r : Rule K} (h : g.ruleForNode scope t = .ok r) :
    r ∈ g.visibleRules t.nonterminal scope := by
  rw [ruleForNode] at h
  split at h
  · cases h
  · split at h
    · rename_i r' hrules
      obtain rfl := Except.ok.inj h
      have hmem : r' ∈ g.table.withSignature t.signature ++ scope.withSignature t.signature :=
        hrules ▸ List.mem_singleton_self r'
      rw [RuleTable.withSignature_eq, Scope.withSignature, List.mem_append, List.mem_filter,
        List.mem_filter, decide_eq_true_iff] at hmem
      rcases hmem with ⟨hr, -⟩ | ⟨hr, hsig⟩
      · exact mem_visibleRules.mpr (.inl hr)
      · exact mem_visibleRules.mpr (.inr ⟨hr, congrArg Signature.nonterminal hsig⟩)
    · cases h

section Scores

variable [Scalar K]

theorem logProbabilityIn_eq_addArgs (S : Scope K) (t : Tree K) : g.logProbabilityIn S t =
    g.nodeLogProbability S t >>= fun lp => g.addArgs (S.below t.kind) lp t.args := by
  obtain ⟨nt, name, kind, _ | as⟩ := t
  · exact (bind_pure _).symm
  · rfl

/-- Arguments add the same if those at one position are subtrees of the same log-probability, or
both terminals. -/
theorem addArgs_congr {g' : Grammar K} {S T : Scope K} {as bs : List (Arg K)}
    (h : List.Forall₂ (fun a b => a.asTree?.map (g.logProbabilityIn S) =
      b.asTree?.map (g'.logProbabilityIn T)) as bs) (lp : K) :
    g.addArgs S lp as = g'.addArgs T lp bs := by
  induction h generalizing lp with
  | nil => rfl
  | @cons a b as bs hab _ ih =>
    cases a <;> cases b
    · rw [addArgs, addArgs, Option.some.inj hab]
      exact congrArg _ (funext fun lp' => ih (lp + lp'))
    · cases hab
    · cases hab
    · exact ih lp

/-- Scoring looks at a grammar at the nodes of the tree only. -/
theorem logProbabilityIn_congr_nodes {g' : Grammar K} {S : Scope K}
    (h : ∀ p n T, (p, n, T) ∈ t.nodesInScope S →
      g'.nodeLogProbability T n = g.nodeLogProbability T n) :
    g'.logProbabilityIn S t = g.logProbabilityIn S t := by
  induction t using Tree.induction generalizing S with
  | node nt name kind args? ih =>
    rw [logProbabilityIn_eq_addArgs, logProbabilityIn_eq_addArgs,
      h [] _ S (Tree.root_mem_nodesInScope _ S)]
    refine congrArg _ (funext fun lp => addArgs_congr (List.forall₂_same.mpr fun a ha => ?_) lp)
    cases a with
    | terminal s => rfl
    | subtree c =>
      refine congrArg some (ih c ha fun p n T hn => ?_)
      obtain ⟨q, hq⟩ := Tree.exists_mem_nodesInScope ha hn
      exact h q n T hq

theorem logProbabilityIn_congr {g' : Grammar K}
    (h : ∀ S t, g'.nodeLogProbability S t = g.nodeLogProbability S t) (S : Scope K) (t : Tree K) :
    g'.logProbabilityIn S t = g.logProbabilityIn S t :=
  logProbabilityIn_congr_nodes fun _ n T _ => h T n

section FirstFailure

theorem failure?_nodeLogProbability (scope : Scope K) (t : Tree K) :
    failure? (g.nodeLogProbability scope t) = failure? (g.ruleForNode scope t) := by
  rw [nodeLogProbability, failure?_bind _ fun _ => failure?_pure _, Option.or_none]

theorem failure?_addArgs {as : List (Arg K)}
    (h : ∀ t, .subtree t ∈ as → failure? (g.logProbabilityIn scope t) =
      (t.nodesInScope scope).findSome? fun x => failure? (g.ruleForNode x.2.2 x.2.1))
    (i : Nat) (lp : K) : failure? (g.addArgs scope lp as) =
      (Tree.nodesInScopeFrom scope i as).findSome? fun x =>
        failure? (g.ruleForNode x.2.2 x.2.1) := by
  induction as generalizing i lp with
  | nil => rfl
  | cons a as ih =>
    have hrest := ih fun t ht => h t (List.mem_cons_of_mem _ ht)
    cases a with
    | terminal s => exact hrest (i + 1) lp
    | subtree t =>
      rw [addArgs, failure?_bind _ fun lp' => hrest (i + 1) (lp + lp'), h t List.mem_cons_self,
        Tree.nodesInScopeFrom, List.findSome?_append, List.findSome?_map]
      rfl

/-- Scoring fails with the error of the first node in pre-order that was not made by exactly one
visible rule, and succeeds if there is none. -/
theorem failure?_logProbabilityIn (g : Grammar K) (scope : Scope K) (t : Tree K) :
    failure? (g.logProbabilityIn scope t) =
      (t.nodesInScope scope).findSome? fun x => failure? (g.ruleForNode x.2.2 x.2.1) := by
  induction t using Tree.induction generalizing scope with
  | node nt name kind args? ih =>
    have hargs := failure?_addArgs (g := g) fun t ht => ih t ht (scope.below kind)
    rw [logProbabilityIn_eq_addArgs, Tree.nodesInScope_node, List.findSome?_cons,
      Tree.kind_node, Tree.args_node, failure?_bind _ (hargs 0), failure?_nodeLogProbability]
    cases failure? (g.ruleForNode scope (.node nt name kind args?)) <;> rfl

/-- A tree has a score if exactly one visible rule made each of its nodes, and only then. -/
theorem exists_logProbabilityIn_iff : (∃ lp, g.logProbabilityIn scope t = .ok lp) ↔
    ∀ p n, t.get? p = some n → ∃ r, g.ruleForNode (scope ++ t.variablesAbove p) n = .ok r := by
  rw [← failure?_eq_none, failure?_logProbabilityIn, List.findSome?_eq_none_iff]
  simp only [failure?_eq_none, Prod.forall, Tree.mem_nodesInScope]
  exact ⟨fun h p n hn => h p n _ ⟨hn, rfl⟩, by rintro h p n _ ⟨hn, rfl⟩; exact h p n hn⟩

/-- The error of a tree without a score is that of one of its nodes. -/
theorem exists_ruleForNode_of_logProbabilityIn_eq {e : GrammarError}
    (h : g.logProbabilityIn scope t = .error e) :
    ∃ p n, t.get? p = some n ∧ g.ruleForNode (scope ++ t.variablesAbove p) n = .error e := by
  rw [← failure?_eq_some, failure?_logProbabilityIn] at h
  obtain ⟨⟨p, n, S⟩, hmem, herr⟩ := List.exists_of_findSome?_eq_some h
  obtain ⟨hn, rfl⟩ := Tree.mem_nodesInScope.mp hmem
  exact ⟨p, n, hn, failure?_eq_some.mp herr⟩

end FirstFailure

section Escape

/-- A tree with a variable that is neither introduced above its use nor in scope has no score, and
scoring reports a variable as out of its scope only if it is such a variable. The scope is what it
was before. -/
theorem logProbabilityOn_escaped (g : Grammar K) (t : Tree K) (scope : Scope K) :
    ((∃ v ∈ t.freeVariables, scope.binds v = false) →
        ∃ e, g.logProbabilityOn t scope = (.error e, scope)) ∧
      ∀ v S, g.logProbabilityOn t scope = (.error (.scopeViolation v), S) →
        v ∈ t.freeVariables ∧ scope.binds v = false := by
  simp only [logProbabilityOn_eq, Tree.freeVariables, List.mem_eraseDups,
    Tree.mem_freeUses_iff_exists_place]
  constructor
  · rintro ⟨v, ⟨p, n, hn, huse, rfl, hfree⟩, hv⟩
    have hfault : g.ruleForNode (scope ++ t.variablesAbove p) n = .error (.scopeViolation n.name) :=
      ruleForNode_eq_scopeViolation.mpr ⟨huse, rfl, Scope.binds_append_eq_false.mpr ⟨hv, hfree⟩⟩
    cases hscore : g.logProbabilityIn scope t with
    | error e => exact ⟨e, rfl⟩
    | ok lp =>
      obtain ⟨r, hr⟩ := exists_logProbabilityIn_iff.mp ⟨lp, hscore⟩ p n hn
      cases hr.symm.trans hfault
  · intro v S h
    obtain ⟨p, n, hn, hfault⟩ :=
      exists_ruleForNode_of_logProbabilityIn_eq (congrArg Prod.fst h)
    obtain ⟨huse, hname, hv⟩ := ruleForNode_eq_scopeViolation.mp hfault
    obtain ⟨hv, hfree⟩ := Scope.binds_append_eq_false.mp hv
    exact ⟨⟨p, n, hn, huse, hname, hfree⟩, hv⟩

/-- The body of the function that returns its argument has no score of its own. -/
theorem logProbabilityOn_escaped_body :
    let body : Tree Float := .node "T" (NameSupply.nameOf 0) .variableUse none
    body.freeVariables = [NameSupply.nameOf 0] ∧ Scope.binds ([] : Scope Float) body.name = false ∧
      ∃ e, (terms : Grammar Float).logProbabilityOn body [] = (.error e, []) := by
  intro body
  have hfree : body.freeVariables = [NameSupply.nameOf 0] := by
    simp [body, Tree.freeVariables, Tree.freeUses, List.eraseDups_cons]
  exact ⟨hfree, rfl, (logProbabilityOn_escaped terms body []).1
    ⟨_, hfree ▸ List.mem_singleton_self _, rfl⟩⟩

end Escape

end Scores

end Grammar

end ScopedGrammar
