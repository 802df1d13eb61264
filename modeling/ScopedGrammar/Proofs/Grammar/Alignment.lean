import ScopedGrammar.Proofs.Grammar.Freshness
import ScopedGrammar.Proofs.Tree.Variant

/-!
# Aligned scopes

Two scopes are aligned over a matching of names if they hold the same variables in the same order,
up to names, and the names match exactly where they stand at the same position. Then the same rules
are visible in both with the same weights, and a node of one scope corresponds to a node of the
other only if it was made by the counterpart of its rule.
-/
namespace ScopedGrammar

variable {K : Type}

/-- The scopes hold variables that differ only by their names, and the names match by position. -/
structure Scope.Aligned (M : Matching) (S T : Scope K) : Prop where
  rules : List.Forall₂ Rule.SameUpToName S T
  names : ∀ (i j : ℕ) (v w : Rule K), S[i]? = some v → T[j]? = some w → (M v.name w.name ↔ i = j)

namespace Rule.SameUpToName

variable {v w : Rule K}

theorem nonterminal_eq (h : v.SameUpToName w) : v.nonterminal = w.nonterminal := by
  rw [← (h : _ = _)]

theorem weight_eq (h : v.SameUpToName w) : v.weight = w.weight := by
  rw [← (h : _ = _)]

theorem expansion_eq (h : v.SameUpToName w) : v.expansion = w.expansion := by
  rw [← (h : _ = _)]

theorem kind_eq (h : v.SameUpToName w) : v.kind = w.kind := by
  rw [← (h : _ = _)]

theorem stem_eq (h : v.SameUpToName w) : v.stem = w.stem := by
  rw [← (h : _ = _)]
  rfl

end Rule.SameUpToName

/-- A rule and the rule that stands for it in another scope: a fixed rule stands for itself, and the
names of corresponding variables match. -/
structure Rule.CounterpartOver (M : Matching) (r r' : Rule K) : Prop where
  same : r.SameUpToName r'
  fixed : r'.isVariableUse = false → r.name = r'.name
  use : r'.isVariableUse = true → M r.name r'.name

theorem Rule.CounterpartOver.of_fixed {M : Matching} {r : Rule K} (h : r.isVariableUse = false) :
    r.CounterpartOver M r :=
  ⟨.refl r, fun _ => rfl, fun huse => by simp [h] at huse⟩

theorem Rule.CounterpartOver.eq_of_fixed {M : Matching} {r r' : Rule K}
    (h : r.CounterpartOver M r') (huse : r'.isVariableUse = false) : r = r' := by
  rw [← (h.same : _ = _), ← h.fixed huse]

namespace Scope.Aligned

variable {M : Matching} {S T : Scope K}

theorem nil (M : Matching) : Scope.Aligned M ([] : Scope K) [] :=
  ⟨.nil, fun i j v w hv => by simp at hv⟩

theorem self (h : (S.map (·.name)).Nodup) : Scope.Aligned Eq S S := by
  refine ⟨List.forall₂_same.mpr fun v _ => .refl v, fun i j v w hv hw => ?_⟩
  constructor
  · intro heq
    refine (List.getElem?_inj ?_ h).mp ?_
    · simpa using (List.getElem?_eq_some_iff.mp hv).1
    · simp [hv, hw, heq]
  · rintro rfl
    exact congrArg Rule.name (Option.some.inj (hv.symm.trans hw))

/-- Two scopes stay aligned if each of them is given a variable with a new name. -/
theorem append_singleton {v w : Rule K} (h : Scope.Aligned M S T) (hvw : v.SameUpToName w)
    (hv : v.name ∉ S.map (·.name)) (hw : w.name ∉ T.map (·.name)) :
    Scope.Aligned (M.bind v.name w.name) (S ++ [v]) (T ++ [w]) := by
  have hlen := h.rules.length_eq
  have hold : ∀ {U : Scope K} {i : ℕ} {a u : Rule K}, U[i]? = some a → u.name ∉ U.map (·.name) →
      i < U.length ∧ a.name ≠ u.name := fun hi hu =>
    ⟨(List.getElem?_eq_some_iff.mp hi).1, fun heq =>
      hu (heq ▸ List.mem_map_of_mem (List.mem_of_getElem? hi))⟩
  refine ⟨List.rel_append h.rules (.cons hvw .nil), fun i j a b ha hb => ?_⟩
  rcases getElem?_concat_eq_some.mp ha with ha | ⟨rfl, rfl⟩
  · obtain ⟨hi, hav⟩ := hold ha hv
    rcases getElem?_concat_eq_some.mp hb with hb | ⟨rfl, rfl⟩
    · obtain ⟨-, hbw⟩ := hold hb hw
      rw [← h.names i j a b ha hb]
      simp [Matching.bind, hav, hbw]
    · have hne : i ≠ T.length := by omega
      simp [Matching.bind, hav, hne]
  · rcases getElem?_concat_eq_some.mp hb with hb | ⟨rfl, rfl⟩
    · obtain ⟨hj, hbw⟩ := hold hb hw
      have hne : S.length ≠ j := by omega
      simp [Matching.bind, hbw, hne]
    · simp [Matching.bind, hlen]

theorem below {kind kind' : NodeKind K} (h : Scope.Aligned M S T)
    (hrel : Option.Rel Rule.SameUpToName kind.introduced? kind'.introduced?)
    (hS : ∀ v, kind.introduced? = some v → v.name ∉ S.map (·.name))
    (hT : ∀ w, kind'.introduced? = some w → w.name ∉ T.map (·.name)) :
    Scope.Aligned (M.below kind kind') (S.below kind) (T.below kind') := by
  rw [Scope.below_eq, Scope.below_eq]
  unfold Matching.below
  revert hrel hS hT
  generalize kind.introduced? = v?
  generalize kind'.introduced? = w?
  rintro (⟨hvw⟩ | _) hS hT
  · exact h.append_singleton hvw (hS _ rfl) (hT _ rfl)
  · simpa using h

theorem exists_counterpart (h : Scope.Aligned M S T) {w : Rule K} (hw : w ∈ T) :
    ∃ v ∈ S, v.SameUpToName w ∧ M v.name w.name ∧
      ∀ u ∈ S, M u.name w.name → u = v := by
  obtain ⟨j, hj⟩ := List.getElem?_of_mem hw
  obtain ⟨hjT, hget⟩ := List.getElem?_eq_some_iff.mp hj
  have hjS : j < S.length := h.rules.length_eq ▸ hjT
  have hv : S[j]? = some S[j] := List.getElem?_eq_getElem hjS
  refine ⟨S[j], List.getElem_mem hjS, ?_, (h.names j j _ w hv hj).mpr rfl, fun u hu hM => ?_⟩
  · have := h.rules.get hjS hjT
    simpa [hget] using this
  · obtain ⟨i, hi⟩ := List.getElem?_of_mem hu
    obtain rfl := (h.names i j u w hi hj).mp hM
    exact Option.some.inj (hi.symm.trans hv)

theorem forall₂_counterpart (h : Scope.Aligned M S T) (hT : ∀ w ∈ T, w.isVariableUse = true) :
    List.Forall₂ (Rule.CounterpartOver M) S T := by
  refine List.forall₂_of_length_eq_of_get h.rules.length_eq fun i hi hj => ?_
  have huse := hT T[i] (List.getElem_mem hj)
  have hname := h.names i i _ _ (List.getElem?_eq_getElem hi) (List.getElem?_eq_getElem hj)
  exact ⟨h.rules.get hi hj, fun hfixed => absurd huse (by simpa using hfixed),
    fun _ => hname.mpr rfl⟩

theorem exists_weight_eq (h : Scope.Aligned M S T) : ∀ v ∈ S, ∃ w ∈ T, v.weight = w.weight := by
  intro v hv
  obtain ⟨w, hw, hvw⟩ := exists_of_forall₂ h.rules.flip v hv
  exact ⟨w, hw, Rule.SameUpToName.weight_eq hvw⟩

end Scope.Aligned

namespace Grammar

variable {g : Grammar K} {M : Matching} {S T : Scope K} {s t : Tree K} {nt : String}

theorem forall₂_visibleRules (h : List.Forall₂ Rule.SameUpToName S T) :
    List.Forall₂ Rule.SameUpToName (g.visibleRules nt S) (g.visibleRules nt T) := by
  refine List.rel_append (List.forall₂_same.mpr fun r _ => .refl r) (forall₂_filter h ?_)
  intro v w hvw
  rw [hvw.nonterminal_eq]

theorem visibleWeight_eq [Scalar K] (h : List.Forall₂ Rule.SameUpToName S T) :
    g.visibleWeight nt S = g.visibleWeight nt T := by
  have hweights : (g.visibleRules nt S).map (·.weight) = (g.visibleRules nt T).map (·.weight) :=
    map_eq_of_forall₂ (forall₂_visibleRules h) fun _ _ hrr => hrr.weight_eq
  rw [visibleWeight, visibleWeight, hweights]

theorem Makes.variantOver {r : Rule K} {kind kind' : NodeKind K} {name : String}
    (h : g.Makes r kind) (h' : g.Makes r kind') (huse : r.isVariableUse = false) :
    kind.VariantOver M name name kind' := by
  unfold Makes at h h'
  unfold Rule.isVariableUse at huse
  cases hk : r.kind with
  | plain =>
    simp only [hk] at h h'
    subst h h'
    exact rfl
  | variableUse stem => simp [hk] at huse
  | binder spec =>
    simp only [hk] at h h'
    obtain ⟨x, rfl⟩ := h
    obtain ⟨y, rfl⟩ := h'
    exact ⟨rfl, rfl⟩

/-- A node that the counterpart of a rule makes corresponds to the nodes that the rule makes. -/
theorem IsInstance.headOver {r r' : Rule K} {kind : NodeKind K} (hinst : g.IsInstance r' t)
    (hr : r.CounterpartOver M r') (hkind : g.Makes r kind) (args? : Option (List (Arg K)))
    (hsome : args?.isSome = t.args?.isSome) :
    Tree.HeadOver M (.node r.nonterminal r.name kind args?) t := by
  refine ⟨hr.same.nonterminal_eq.trans hinst.nonterminal_eq, ?_, hsome⟩
  cases huse : r'.isVariableUse with
  | false =>
    obtain rfl := hr.eq_of_fixed huse
    rw [Tree.name_node, Tree.kind_node, ← hinst.name_eq]
    exact hkind.variantOver hinst.makes huse
  | true =>
    have hruse : r.isVariableUse = true := by
      rw [← huse, Rule.isVariableUse, Rule.isVariableUse, hr.same.kind_eq]
    obtain rfl := hkind.isVariableUse_eq.mp hruse
    rw [Tree.kind_node, hinst.makes.isVariableUse_eq.mp huse, ← hinst.name_eq]
    exact hr.use huse

/-- Below derived nodes that correspond scopes stay aligned. -/
theorem Derived.aligned_below {names names' : NameSupply} (hs : g.Derived names S s)
    (ht : g.Derived names' T t) (hal : Scope.Aligned M S T) (h : Tree.HeadOver M s t) :
    Scope.Aligned (M.below s.kind t.kind) (S.below s.kind) (T.below t.kind) := by
  refine hal.below h.introduced? (fun v hv => ?_) fun w hw => ?_
  · exact hs.fresh.disjoint _ (Tree.mem_introducedNames_of_introduced? hv)
  · exact ht.fresh.disjoint _ (Tree.mem_introducedNames_of_introduced? hw)

/-- The rule of a node has a counterpart in an aligned scope. Nodes made by it correspond to the
node, and no other nodes do. -/
theorem exists_counterpart {names : NameSupply} {r' : Rule K} (hdist : g.DistinctSignatures)
    (hS : S.WellNamed names) (hal : Scope.Aligned M S T)
    (hr' : r' ∈ g.visibleRules t.nonterminal T) (hinst : g.IsInstance r' t)
    (hT : ∀ w ∈ T, w.isVariableUse = true) :
    ∃ r ∈ g.visibleRules t.nonterminal S, r.SameUpToName r' ∧
      (∀ kind args?, g.Makes r kind → args?.isSome = t.args?.isSome →
        Tree.HeadOver M (.node r.nonterminal r.name kind args?) t) ∧
      ∀ q ∈ g.visibleRules t.nonterminal S, ∀ u, g.IsInstance q u → u.VariantOver M t → q = r := by
  have huse : ∀ q ∈ g.visibleRules t.nonterminal S, ∀ u, g.IsInstance q u → u.VariantOver M t →
      (q.isVariableUse = true ↔ r'.isVariableUse = true) := by
    intro q _ u hu hvar
    rw [hu.makes.isVariableUse_eq, hinst.makes.isVariableUse_eq]
    have hkind := hvar.head.kind
    cases hk : u.kind <;> cases hk' : t.kind <;> simp_all [NodeKind.VariantOver]
  rcases mem_visibleRules.mp hr' with hfixed | ⟨hmem, hnt⟩
  · have hr'use := g.table.not_variableUse _ r' hfixed
    have hself : r'.CounterpartOver M r' := .of_fixed hr'use
    refine ⟨r', mem_visibleRules.mpr (.inl hfixed), .refl r',
      fun kind args? hkind => hinst.headOver hself hkind args?, fun q hq u hu hvar => ?_⟩
    · have hquse : ¬ q.isVariableUse = true := by rw [huse q hq u hu hvar]; simp [hr'use]
      rcases mem_visibleRules.mp hq with hq | ⟨hq, -⟩
      · have hname : u.name = t.name := by
          have hkind := hvar.head.kind
          have huk : u.kind ≠ .variableUse := fun h => hquse (hu.makes.isVariableUse_eq.mpr h)
          cases hk : u.kind <;> cases hk' : t.kind <;> simp_all [NodeKind.VariantOver]
        have hsig : q.signature = r'.signature := by
          rw [hu.signature_eq, hinst.signature_eq, hvar.signature_eq hname]
        exact List.inj_on_of_nodup_map (hdist.nodup_rulesFor _) hq hfixed hsig
      · exact absurd (hS.isVariableUse q hq) hquse
  · have hr'use := hT r' hmem
    obtain ⟨v, hv, hvw, hM, hunique⟩ := hal.exists_counterpart hmem
    have hcounter : v.CounterpartOver M r' :=
      ⟨hvw, fun hfixed => by simp [hr'use] at hfixed, fun _ => hM⟩
    refine ⟨v, mem_visibleRules.mpr (.inr ⟨hv, hvw.nonterminal_eq.trans hnt⟩), hvw,
      fun kind args? hkind => hinst.headOver hcounter hkind args?, fun q hq u hu hvar => ?_⟩
    · have hquse := (huse q hq u hu hvar).mpr hr'use
      rcases mem_visibleRules.mp hq with hq | ⟨hq, -⟩
      · simp [g.table.not_variableUse _ q hq] at hquse
      · refine hunique q hq ?_
        have hkind := hvar.head.kind
        rw [hu.makes.isVariableUse_eq.mp hquse, hinst.makes.isVariableUse_eq.mp hr'use] at hkind
        rw [hu.name_eq, hinst.name_eq]
        exact hkind

end Grammar

end ScopedGrammar
