import ScopedGrammar.Proofs.Grammar.Replacement
import ScopedGrammar.Proofs.Tree.Renewal

/-!
# Fresh copies

A tree that corresponds to a derived one is derived where its variables are those that match. So a
copy of a derived tree with fresh names is derived in the same scope.
-/
namespace ScopedGrammar

variable {K : Type}

namespace Grammar

variable {g : Grammar K} {names : NameSupply} {S T : Scope K} {s t : Tree K} {M : Matching}

/-- A rule makes the corresponding kinds. -/
theorem Makes.of_variantOver {r : Rule K} {kind kind' : NodeKind K} {x y : String}
    (h : g.Makes r kind) (hvar : kind.VariantOver M x y kind') : g.Makes r kind' := by
  unfold Makes at h ⊢
  cases hk : r.kind with
  | plain =>
    simp only [hk] at h ⊢
    subst h
    cases kind' <;> first | rfl | exact hvar.elim
  | variableUse stem =>
    simp only [hk] at h ⊢
    subst h
    cases kind' <;> first | rfl | exact hvar.elim
  | binder spec =>
    simp only [hk] at h ⊢
    obtain ⟨name, rfl⟩ := h
    cases kind' with
    | plain => exact hvar.elim
    | variableUse => exact hvar.elim
    | binder w =>
      have hsame : { g.variableOf spec name with name := w.name } = w := hvar.2
      exact ⟨w.name, congrArg NodeKind.binder hsame.symm⟩

/-- Each variable below a node matches one below a corresponding node. -/
theorem exists_of_below {kind kind' : NodeKind K}
    (hrel : Option.Rel Rule.SameUpToName kind.introduced? kind'.introduced?)
    (hfresh : ∀ u, kind.introduced? = some u → u.name ∉ S.map (·.name))
    (hM : ∀ v ∈ S, ∀ y, M v.name y → ∃ w ∈ T, w.name = y ∧ v.SameUpToName w) :
    ∀ v ∈ S.below kind, ∀ y, M.below kind kind' v.name y →
      ∃ w ∈ T.below kind', w.name = y ∧ v.SameUpToName w := by
  intro v hv y hy
  rw [Scope.below_eq, List.mem_append, Option.mem_toList] at hv
  rw [Scope.below_eq]
  unfold Matching.below at hy
  revert hrel hfresh hv hy
  generalize kind.introduced? = u?
  generalize kind'.introduced? = w?
  rintro (⟨huw⟩ | _) hfresh hv hy
  · next u w =>
    rcases hv with hv | hv
    · rcases hy with ⟨heq, -⟩ | ⟨-, -, hy⟩
      · exact absurd (List.mem_map.mpr ⟨v, hv, heq⟩) (hfresh u rfl)
      · obtain ⟨w', hw', hname, hsame⟩ := hM v hv y hy
        exact ⟨w', List.mem_append_left _ hw', hname, hsame⟩
    · obtain rfl : u = v := Option.some.inj hv
      rcases hy with ⟨-, heq⟩ | ⟨hne, -⟩
      · exact ⟨w, by simp, heq.symm, huw⟩
      · exact absurd rfl hne
  · obtain ⟨w', hw', hname, hsame⟩ := hM v (hv.resolve_right (by simp)) y hy
    exact ⟨w', List.mem_append_left _ hw', hname, hsame⟩

/-- A tree that corresponds to a derived one is derived where its variables are those that match. -/
theorem Derived.derives_of_variantOver (hs : g.Derived names S s) (h : s.VariantOver M t)
    (hM : ∀ v ∈ S, ∀ y, M v.name y → ∃ w ∈ T, w.name = y ∧ v.SameUpToName w) : g.Derives T t := by
  induction s using Tree.induction generalizing S T M t with
  | node nt name kind args? ih =>
    obtain ⟨⟨r, hr, hinst⟩, -⟩ := derives_iff.mp hs.derives
    have hkind := h.head.kind
    -- a fixed rule stays, and the use of a variable becomes that of the variable which matches
    have hroot : ∃ r' ∈ g.visibleRules t.nonterminal T, g.IsInstance r' t := by
      rcases mem_visibleRules.mp hr with hfixed | ⟨hmem, hnt⟩
      · have huse : t.name = name := by
          have hne : kind ≠ .variableUse := fun hk => by
            have hrule := hinst.makes.isVariableUse_eq.mpr hk
            simp [g.table.not_variableUse _ r hfixed] at hrule
          cases kind <;> cases hk : t.kind <;> rw [hk] at hkind <;> simp_all [NodeKind.VariantOver]
        rw [← h.nonterminal_eq]
        exact ⟨r, mem_visibleRules.mpr (.inl hfixed), hinst.signature_eq.trans (h.signature_eq huse.symm),
          hinst.makes.of_variantOver hkind⟩
      · have huse := hs.wellNamed.isVariableUse r hmem
        obtain rfl : kind = .variableUse := hinst.makes.isVariableUse_eq.mp huse
        have htkind : t.kind = .variableUse := by
          cases hk : t.kind <;> rw [hk] at hkind <;> first | rfl | exact hkind.elim
        rw [htkind] at hkind
        obtain ⟨w, hw, hname, hrw⟩ := hM r hmem t.name (hinst.name_eq ▸ hkind)
        have hwnt : w.nonterminal = t.nonterminal :=
          hrw.nonterminal_eq.symm.trans (hnt.trans h.nonterminal_eq)
        have hexp : r.expansion = t.args?.map (·.map Arg.symbol) :=
          (congrArg Signature.expansion hinst.signature_eq).trans h.expansion_eq
        refine ⟨w, mem_visibleRules.mpr (.inr ⟨hw, hwnt⟩), ?_, ?_⟩
        · unfold Rule.signature Tree.signature
          rw [hwnt, hname, ← hrw.expansion_eq, hexp]
        · have hmakes := hinst.makes
          unfold Makes at hmakes ⊢
          rw [htkind, ← hrw.kind_eq]
          exact hmakes
    obtain ⟨r', hr', hinst'⟩ := hroot
    refine .node r' hr' hinst' fun d hd => ?_
    obtain ⟨a, ha, had⟩ := exists_of_forall₂ h.args _ hd
    cases had with
    | @subtree c _ hcd =>
      refine ih c ha (hs.child ha) hcd (exists_of_below h.head.introduced? (fun u hu => ?_) hM)
      exact hs.fresh.disjoint _ (Tree.mem_introducedNames_of_introduced? hu)

theorem Derived.apart (ht : g.Derived names S t) : t.Apart :=
  ⟨ht.fresh.nodup, fun x hx hmem => ht.fresh.disjoint x hmem (ht.mem_scope_of_mem_freeUses hx)⟩

/-- A copy with fresh names is a variant of the tree, derived in the same scope. -/
theorem Derived.uniquify (ht : g.Derived names S t) {s : NameSupply}
    (hle : names.issued ≤ s.issued) : g.Derived (t.uniquify s).2 S (t.uniquify s).1 ∧
      t.Variant (t.uniquify s).1 ∧ s.issued ≤ (t.uniquify s).2.issued ∧
        (t.uniquify s).1.introducedNames = s.taken (t.uniquify s).2 := by
  have hissued : ∀ x ∈ S.map (·.name), s.Issued x := by
    intro x hx
    obtain ⟨v, hv, rfl⟩ := List.mem_map.mp hx
    exact (ht.wellNamed.issued v hv).mono hle
  obtain ⟨hvar, hlater, hnames⟩ := ht.apart.uniquify fun x hx =>
    (hissued x (ht.mem_scope_of_mem_freeUses hx)).avoids
  refine ⟨⟨?_, ⟨?_, ?_, ?_⟩, ht.wellNamed.mono (Nat.le_trans hle hlater)⟩, hvar, hlater,
    hnames⟩
  · exact ht.derives_of_variantOver hvar fun v hv y hy => ⟨v, hv, hy, .refl v⟩
  · rw [hnames]
    exact NameSupply.nodup_taken s _
  · intro x hx
    exact NameSupply.issued_of_mem_taken (hnames ▸ hx)
  · intro x hx hmem
    exact NameSupply.not_issued_of_mem_taken (hnames ▸ hx) (hissued x hmem)

end Grammar

theorem Tree.VariantOver.nonemptyTerminals {M : Matching} {s t : Tree K} (h : s.VariantOver M t)
    (hs : s.NonemptyTerminals) : t.NonemptyTerminals := by
  induction s using Tree.induction generalizing M t with
  | node nt name kind args? ih =>
    obtain ⟨hterm, hargs⟩ := hs
    refine .node (fun x hx => ?_) fun d hd => ?_
    · obtain ⟨a, ha, hab⟩ := exists_of_forall₂ h.args _ hx
      cases hab
      exact hterm x ha
    · obtain ⟨a, ha, hab⟩ := exists_of_forall₂ h.args _ hd
      cases hab with
      | subtree hcd => exact ih _ ha hcd (hargs _ ha)

theorem Grammar.Complete.of_variantOver {g : Grammar K} {M : Matching} {s t : Tree K}
    (hs : g.Complete s) (h : s.VariantOver M t) : g.Complete t := by
  induction s using Tree.induction generalizing M t with
  | node nt name kind args? ih =>
    obtain ⟨hfilled, hargs⟩ := hs
    refine .node (fun b hb => ?_) fun d hd => ?_
    · obtain ⟨a, ha, hab⟩ := exists_of_forall₂ h.args b hb
      have hsome : a.asTree?.isSome = b.asTree?.isSome := by cases hab <;> rfl
      rw [← hsome, hfilled a ha, Tree.symbol_eq_of_variantOver hab]
    · obtain ⟨a, ha, hab⟩ := exists_of_forall₂ h.args _ hd
      cases hab with
      | @subtree c _ hcd => exact ih c ha (hargs c ha) hcd

end ScopedGrammar
