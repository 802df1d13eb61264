import ScopedGrammar.Proofs.Tree.Outer

/-!
# Subtrees at other places

Insertion, deletion and copying move a subtree to another place. Moved up or down by one node it is
alike to what another tree has there if it corresponds over the names matched on the way and does
not meddle with the variable of the node between. Moved to a place that sees the same variables it
keeps all names, since binders of the same name are the same.
-/
namespace ScopedGrammar.Tree

variable {K : Type} {g : Grammar K} {names names' : NameSupply} {s t m n c d : Tree K}
  {p q : Place} {i j : ℕ}

section Arguments

/-- The subtree at a place and an argument of the corresponding node are alike if they correspond
over the names that the way matches, and the argument does not use the variable of the node. -/
theorem HeadsAlong.alikeAt_argument_iff (hdist : g.DistinctSignatures) (hplain : g.PlainNames)
    (hs : g.Derivable names s) (ht : g.Derivable names' t) (h : HeadsAlong Eq s t p)
    (hm : s.get? p = some m) (hn : t.get? p = some n) (hd : n.child? i = some d) {N : Matching}
    (hN : ∀ x ∈ (s.variablesAbove p).map (·.name), ∀ y, N x y ↔
      (∀ w, n.introduced? = some w → y ≠ w.name) ∧ Matching.along Eq s t p x y) :
    s.alikeAt p t (p ++ [i]) = true ↔ m.VariantOver N d := by
  have hd' : t.get? (p ++ [i]) = some d := get?_concat hn hd
  have hdm := hs.derived_at hm
  have hdd : g.Derived names' (t.variablesAbove p ++ n.introduced?.toList) d := by
    have hat := ht.toDerived.at_place hd'
    rwa [List.nil_append, variablesAbove_append hn, variablesAbove_cons hd, variablesAbove_nil,
      List.append_nil] at hat
  refine alikeAt_iff_of_printed hdist hplain hs ht hm hd' fun x hx y hy => ?_
  have hxS := hdm.mem_scope_of_mem_freeUses hx
  obtain ⟨w, hw, rfl⟩ := List.mem_map.mp (hdd.mem_scope_of_mem_freeUses hy)
  rw [hN x hxS]
  obtain ⟨v, hv, rfl⟩ := List.mem_map.mp hxS
  unfold printedAlike
  rw [List.mem_append, Option.mem_toList] at hw
  rcases hw with hw | hw
  · have hne : ∀ u, n.introduced? = some u → w.name ≠ u.name := by
      intro u hu heq
      have hnodup := hdd.wellNamed.nodup
      rw [hu, List.map_append, List.nodup_append'] at hnodup
      exact hnodup.2.2 (List.mem_map_of_mem hw) (by simp [heq])
    rw [apply_outerNames_append ht.toDerived hn (by simp [hd]) hw,
      h.apply_eq_iff hs.toDerived ht.toDerived (.nil Eq) (hs.plainNames hplain)
        (ht.plainNames hplain) 0 hv hw]
    exact ⟨fun hM => ⟨hne, hM⟩, And.right⟩
  · -- The variable of the node shows a depth that no variable above the place has.
    obtain ⟨level, -, hlevel, heq⟩ := exists_apply_outerNames hs.toDerived hm 0 hv
    have hstem := (hs.plainNames hplain).stem_above hm hv
    have hstem' := (ht.plainNames hplain).stem_above hd' (v := w) (by
      rw [variablesAbove_append hn, variablesAbove_cons hd, hw]
      simp)
    rw [heq, apply_outerNames_own hn hd hw]
    refine iff_of_false (fun hmark => ?_) fun hno => hno.1 w hw rfl
    obtain ⟨-, hdepth, -⟩ := markText_inj hstem hstem' hmark
    omega

/-- An argument that does not use the variable of its node is alike to the subtree at the place of
the node if they correspond over the names that the way matches. -/
theorem HeadsAlong.argument_alikeAt_iff (hdist : g.DistinctSignatures) (hplain : g.PlainNames)
    (hs : g.Derivable names s) (ht : g.Derivable names' t) (h : HeadsAlong Eq s t p)
    (hm : s.get? p = some m) (hn : t.get? p = some n) (hc : m.child? i = some c)
    (hfree : ∀ v, m.introduced? = some v → v.name ∉ c.freeUses []) :
    s.alikeAt (p ++ [i]) t p = true ↔ c.VariantOver (Matching.along Eq s t p) n := by
  have hc' : s.get? (p ++ [i]) = some c := get?_concat hm hc
  have hdn := ht.derived_at hn
  have hdc : g.Derived names (s.variablesAbove p ++ m.introduced?.toList) c := by
    have hat := hs.toDerived.at_place hc'
    rwa [List.nil_append, variablesAbove_append hm, variablesAbove_cons hc, variablesAbove_nil,
      List.append_nil] at hat
  refine alikeAt_iff_of_printed hdist hplain hs ht hc' hn fun x hx y hy => ?_
  obtain ⟨v, hv, rfl⟩ := List.mem_map.mp (hdc.mem_scope_of_mem_freeUses hx)
  obtain ⟨w, hw, rfl⟩ := List.mem_map.mp (hdn.mem_scope_of_mem_freeUses hy)
  rw [List.mem_append, Option.mem_toList] at hv
  have hv := hv.resolve_right fun hv => hfree v hv hx
  unfold printedAlike
  rw [apply_outerNames_append hs.toDerived hm (by simp [hc]) hv]
  exact h.apply_eq_iff hs.toDerived ht.toDerived (.nil Eq) (hs.plainNames hplain)
    (ht.plainNames hplain) 0 hv hw

/-- A node has more nodes than an argument. -/
theorem countNodes_lt_of_child? (hc : t.child? i = some c) : c.countNodes < t.countNodes := by
  have hmem := mem_args_of_child? hc
  have hle : ∀ as : List (Arg K), .subtree c ∈ as → c.countNodes ≤ countNodesArgs as := by
    intro as h
    induction as with
    | nil => simp at h
    | cons a as ih =>
      rcases List.mem_cons.mp h with rfl | h
      · rw [countNodesArgs]
        omega
      · have := ih h
        cases a with
        | terminal x => rwa [countNodesArgs]
        | subtree u => rw [countNodesArgs]; omega
  have := hle t.args hmem
  rw [countNodes_eq t]
  omega

end Arguments

section SameNames

/-- Different arguments introduce different names. -/
theorem disjoint_introducedNames (ht : t.introducedNames.Nodup) (hc : t.child? i = some c)
    (hd : t.child? j = some d) (hij : i ≠ j) {x : String} (hx : x ∈ c.introducedNames) :
    x ∉ d.introducedNames := by
  intro hxd
  have hi := child?_eq_some.mp hc
  -- Without the one argument the names of the other are all still there.
  have hget : t.get? [i] = some c := by simp [hc]
  obtain ⟨t', ht'⟩ := Option.isSome_iff_exists.mp
    ((isSome_replace? t (.node "" "" .plain none) [i]).trans (by rw [hget]; rfl))
  obtain ⟨pre, post, hold, hnew⟩ := introducedNames_replace? hget ht'
  have hset : t' = t.withArgs (t.args.set i (.subtree (.node "" "" .plain none))) := by
    simpa [hc] using ht'.symm
  have hd' : t'.get? [j] = some d := by
    have hargs := (withArgs_of_child? hc (t.args.set i (.subtree (.node "" "" .plain none)))).1
    have hj : t'.child? j = some d := by
      rw [child?_eq_some, hset, hargs, List.getElem?_set_ne hij]
      exact child?_eq_some.mp hd
    simp [hj]
  have hrest := (sublist_introducedNames hd').subset hxd
  rw [hnew] at hrest
  rw [hold, List.append_assoc, List.nodup_append', List.nodup_append'] at ht
  obtain ⟨-, ⟨-, -, hcpost⟩, hprec⟩ := ht
  simp only [introducedNames, List.append_nil, List.mem_append] at hrest
  rcases hrest with hrest | hrest
  · exact hprec hrest (List.mem_append_left _ hx)
  · exact hcpost hx hrest

/-- Variables of the same name above two places of a tree are the same and are printed alike. -/
theorem eq_of_name_eq_above {S : Scope K} (ht : g.Derived names S t) (hm : t.get? p = some m)
    (hn : t.get? q = some n) {v w : Rule K} (hv : v ∈ t.variablesAbove p)
    (hw : w ∈ t.variablesAbove q) (heq : v.name = w.name) (depth : ℕ) :
    v = w ∧ (outerNames depth t p).apply v.name = (outerNames depth t q).apply w.name := by
  induction p generalizing t q S depth with
  | nil => simp at hv
  | cons i p ih =>
    cases q with
    | nil => simp at hw
    | cons j q =>
      obtain ⟨c, hc, hcm⟩ := get?_cons_eq_some.mp hm
      obtain ⟨d, hd, hdn⟩ := get?_cons_eq_some.mp hn
      have hmem := mem_args_of_child? hc
      have hmem' := mem_args_of_child? hd
      have hroot : ∀ u e, t.introduced? = some u → .subtree e ∈ t.args → u.name ∉ e.introducedNames := by
        intro u e hu he hbelow
        have hdisjoint := (ht.child he).fresh.disjoint _ hbelow
        rw [Scope.below_kind, hu] at hdisjoint
        simp at hdisjoint
      rw [variablesAbove_cons hc, List.mem_append, Option.mem_toList] at hv
      rw [variablesAbove_cons hd, List.mem_append, Option.mem_toList] at hw
      have hvc : v ∈ c.variablesAbove p → v.name ∈ c.introducedNames :=
        fun h => mem_introducedNames_of_variablesAbove h (by simp [hcm])
      have hwd : w ∈ d.variablesAbove q → w.name ∈ d.introducedNames :=
        fun h => mem_introducedNames_of_variablesAbove h (by simp [hdn])
      -- all names are distinct, so the variables are both of the root or both below one child
      rcases hv with hv | hv <;> rcases hw with hw | hw
      · obtain rfl : v = w := Option.some.inj (hv.symm.trans hw)
        rw [apply_outerNames_root ht hc (by simp [hcm]) hv,
          apply_outerNames_root ht hd (by simp [hdn]) hv]
        exact ⟨rfl, rfl⟩
      · exact absurd (heq ▸ hwd hw) (hroot v d hv hmem')
      · exact absurd (heq ▸ hvc hv) (hroot w c hw hmem)
      · rw [apply_outerNames_child hc hv, apply_outerNames_child hd hw]
        by_cases hij : i = j
        · subst hij
          obtain rfl : c = d := Option.some.inj (hc.symm.trans hd)
          exact ih (ht.child hmem) hcm hdn hv hw (depth + 1)
        · exact absurd (heq ▸ hwd hw) (disjoint_introducedNames ht.fresh.nodup hc hd hij (hvc hv))

end SameNames

end ScopedGrammar.Tree
