import ScopedGrammar.Proofs.Tree.Shifted

/-!
# What variants have in common

Variants have their nodes at the same places, and the nodes there correspond to each other. A name
that is visible at two places is that of one binder, so whether two places see the same names does
not depend on the names.
-/
namespace ScopedGrammar.Tree

variable {K : Type} {M N : Matching} {s t m n : Tree K} {p q : Place}

section Nodes

/-- The nodes at a place correspond to each other, if there are any. -/
theorem VariantOver.rel_get? (h : s.VariantOver M t) (p : Place) :
    Option.Rel (fun m n => m.VariantOver (M.along s t p) n) (s.get? p) (t.get? p) := by
  cases hm : s.get? p with
  | some m =>
    obtain ⟨-, n, hn, hmn⟩ := h.at_place hm
    rw [hn]
    exact .some hmn
  | none =>
    cases hn : t.get? p with
    | none => exact .none
    | some n =>
      obtain ⟨-, m, hm', -⟩ := h.symm.at_place hn
      rw [hm] at hm'
      cases hm'

theorem VariantOver.at_both (h : s.VariantOver M t) (hm : s.get? p = some m)
    (hn : t.get? p = some n) : m.VariantOver (M.along s t p) n := by
  have hrel := h.rel_get? p
  rw [hm, hn] at hrel
  cases hrel with
  | some hmn => exact hmn

theorem forall₂_subtreesFrom {as bs : List (Arg K)} (h : List.Forall₂ (Arg.VariantOver M) as bs)
    (k : ℕ) : List.Forall₂ (fun c d => c.1 = d.1 ∧ c.2.VariantOver M d.2) (subtreesFrom k as)
      (subtreesFrom k bs) := by
  induction h generalizing k with
  | nil => exact .nil
  | cons hab _ ih =>
    cases hab with
    | subtree hcd => exact .cons ⟨rfl, hcd⟩ (ih (k + 1))
    | terminal s => exact ih (k + 1)

theorem VariantOver.childrenWithIndex (h : s.VariantOver M t) :
    List.Forall₂ (fun c d => c.1 = d.1 ∧ c.2.VariantOver (M.below s.kind t.kind) d.2)
      s.childrenWithIndex t.childrenWithIndex :=
  forall₂_subtreesFrom h.args 0

theorem isLeaf_eq (t : Tree K) : t.isLeaf = t.childrenWithIndex.isEmpty := by
  have hchildren : ∀ (as : List (Arg K)) (k : ℕ),
      (as.filterMap Arg.asTree?).isEmpty = (subtreesFrom k as).isEmpty := by
    intro as
    induction as with
    | nil => exact fun _ => rfl
    | cons a as ih =>
      intro k
      cases a with
      | subtree t => rfl
      | terminal s => exact ih (k + 1)
  exact hchildren t.args 0

theorem VariantOver.isLeaf_eq (h : s.VariantOver M t) : s.isLeaf = t.isLeaf := by
  have hlength := h.childrenWithIndex.length_eq
  rw [Tree.isLeaf_eq, Tree.isLeaf_eq, Bool.eq_iff_iff, List.isEmpty_iff_length_eq_zero,
    List.isEmpty_iff_length_eq_zero, hlength]

theorem placesFrom_congr {as bs : List (Arg K)} (h : List.Forall₂ (Arg.VariantOver M) as bs)
    (ih : ∀ c, .subtree c ∈ as → ∀ d, c.VariantOver M d → c.places = d.places) (k : ℕ) :
    (subnodesFrom k as).map (·.1) = (subnodesFrom k bs).map (·.1) := by
  induction h generalizing k with
  | nil => rfl
  | cons hab _ ihs =>
    have hrest := ihs (fun c hc => ih c (List.mem_cons_of_mem _ hc)) (k + 1)
    cases hab with
    | terminal s => exact hrest
    | @subtree c d hcd =>
      have hplaces := congrArg (List.map (k :: ·)) (ih c List.mem_cons_self d hcd)
      simp only [places, List.map_map, Function.comp_def] at hplaces
      simp only [subnodesFrom, List.map_append, List.map_map, Function.comp_def, hrest, hplaces]

theorem VariantOver.places_eq (h : s.VariantOver M t) : s.places = t.places := by
  induction s using induction generalizing M t with
  | node nt name kind args? ih =>
    obtain ⟨nt', name', kind', args?'⟩ := t
    have hargs := placesFrom_congr h.args (fun c hc d hcd => ih c hc hcd) 0
    rw [places, places, subnodes_node, subnodes_node, List.map_cons, List.map_cons]
    exact congrArg ([] :: ·) hargs

theorem VariantOver.forall₂_subnodes (h : s.VariantOver M t) :
    List.Forall₂ (fun a b => a.1 = b.1 ∧ s.get? a.1 = some a.2 ∧ t.get? a.1 = some b.2)
      s.subnodes t.subnodes := by
  have hplaces : List.Forall₂ (fun a b => a.1 = b.1) s.subnodes t.subnodes := by
    have heq : List.Forall₂ Eq (s.subnodes.map (·.1)) (t.subnodes.map (·.1)) := by
      rw [List.forall₂_eq_eq_eq]
      exact h.places_eq
    rwa [List.forall₂_map_left_iff, List.forall₂_map_right_iff] at heq
  refine forall₂_imp_of_mem hplaces fun a ha b hb hab => ⟨hab, mem_subnodes.mp ha, ?_⟩
  rw [hab]
  exact mem_subnodes.mp hb

theorem forall₂_freeUsesArgs {as bs : List (Arg K)} (h : List.Forall₂ (Arg.VariantOver M) as bs)
    (ih : ∀ c, .subtree c ∈ as → ∀ d, c.VariantOver M d →
      List.Forall₂ M (c.freeUses []) (d.freeUses [])) :
    List.Forall₂ M (freeUsesArgs [] as) (freeUsesArgs [] bs) := by
  induction h with
  | nil => exact .nil
  | cons hab _ ihs =>
    have hrest := ihs fun c hc => ih c (List.mem_cons_of_mem _ hc)
    cases hab with
    | terminal s => exact hrest
    | subtree hcd => exact List.rel_append (ih _ List.mem_cons_self _ hcd) hrest

theorem forall₂_filter_bind {v w : String} {xs ys : List String}
    (h : List.Forall₂ (M.bind v w) xs ys) :
    List.Forall₂ M (xs.filter (· ∉ [v])) (ys.filter (· ∉ [w])) := by
  have hother : List.Forall₂ (M.bind v w) (xs.filter (· ∉ [v])) (ys.filter (· ∉ [w])) := by
    refine forall₂_filter h fun x y hxy => ?_
    rcases hxy with ⟨rfl, rfl⟩ | ⟨hx, hy, -⟩
    · simp
    · simp [hx, hy]
  refine forall₂_imp_of_mem hother fun x hx y _ hxy => ?_
  rcases hxy with ⟨rfl, -⟩ | ⟨-, -, hxy⟩
  · simp at hx
  · exact hxy

/-- The free variables of corresponding trees match use by use. -/
theorem VariantOver.forall₂_freeUses (h : s.VariantOver M t) :
    List.Forall₂ M (s.freeUses []) (t.freeUses []) := by
  induction s using induction generalizing M t with
  | node nt name kind args? ih =>
    have hargs := forall₂_freeUsesArgs h.args fun c hc d hcd => ih c hc hcd
    have hkind := h.head.kind
    obtain ⟨nt', name', kind', args?'⟩ := t
    rw [freeUses_node, freeUses_node]
    cases kind <;> cases kind' <;> try exact hkind.elim
    · exact hargs
    · next v w =>
      have hbelow := forall₂_filter_bind hargs
      rw [← freeUsesArgs_eq_filter, ← freeUsesArgs_eq_filter] at hbelow
      exact hbelow
    · exact .cons hkind hargs

theorem VariantOver.exists_freeUse (h : s.VariantOver M t) {x : String} (hx : x ∈ s.freeUses []) :
    ∃ y ∈ t.freeUses [], M x y :=
  exists_of_forall₂ h.forall₂_freeUses.flip x hx

end Nodes

section Names

variable {g : Grammar K} {names names' : NameSupply} {S T : Scope K}

/-- A binder stands at a place and introduces a name. -/
def BindsAt (t : Tree K) (r : Place) (x : String) : Prop :=
  ∃ n v, t.get? r = some n ∧ n.introduced? = some v ∧ v.name = x

theorem bindsAt_nil {x : String} : t.BindsAt [] x ↔ ∃ v, t.introduced? = some v ∧ v.name = x := by
  simp [BindsAt]

theorem bindsAt_cons {c : Tree K} {i : ℕ} {x : String} (hc : t.child? i = some c) (r : Place) :
    t.BindsAt (i :: r) x ↔ c.BindsAt r x := by
  simp [BindsAt, hc]

/-- The names visible at a place are those that the binders strictly above it introduce. -/
theorem mem_names_above_iff (hm : t.get? p = some m) {x : String} :
    x ∈ (t.variablesAbove p).map (·.name) ↔ ∃ r i q, p = r ++ i :: q ∧ t.BindsAt r x := by
  induction p generalizing t with
  | nil => simp
  | cons i p ih =>
    obtain ⟨c, hc, hcm⟩ := get?_cons_eq_some.mp hm
    rw [variablesAbove_cons hc, List.map_append, List.mem_append, ih hcm]
    constructor
    · rintro (h | ⟨r, j, q, rfl, hr⟩)
      · refine ⟨[], i, p, rfl, bindsAt_nil.mpr ?_⟩
        simpa using h
      · exact ⟨i :: r, j, q, rfl, (bindsAt_cons hc r).mpr hr⟩
    · rintro ⟨r, j, q, heq, hr⟩
      cases r with
      | nil => exact .inl (by simpa using bindsAt_nil.mp hr)
      | cons k r =>
        obtain ⟨rfl, rfl⟩ := List.cons.inj heq
        exact .inr ⟨r, j, q, rfl, (bindsAt_cons hc r).mp hr⟩

theorem BindsAt.mem_introducedNames {r : Place} {x : String} (h : t.BindsAt r x) :
    x ∈ t.introducedNames := by
  obtain ⟨n, v, hn, hv, rfl⟩ := h
  rw [introduced?_eq] at hv
  exact (sublist_introducedNames hn).subset (mem_introducedNames_of_introduced? hv)

/-- Where all names are distinct, each is introduced at one place only. -/
theorem BindsAt.unique (ht : t.introducedNames.Nodup) {r r' : Place} {x : String}
    (h : t.BindsAt r x) (h' : t.BindsAt r' x) : r = r' := by
  have hchild : ∀ {t : Tree K} {i : ℕ} {r : Place}, t.introducedNames.Nodup →
      t.BindsAt (i :: r) x → ∃ c, t.child? i = some c ∧ c.BindsAt r x ∧
        c.introducedNames.Nodup ∧ ¬ t.BindsAt [] x := by
    intro t i r ht h
    obtain ⟨n, v, hn, hv⟩ := h
    obtain ⟨c, hc, hcn⟩ := get?_cons_eq_some.mp hn
    have hnodup := ht.sublist (sublist_introducedNames_child (mem_args_of_child? hc))
    rw [List.nodup_append'] at hnodup
    have hbinds : c.BindsAt r x := ⟨n, v, hcn, hv⟩
    refine ⟨c, hc, hbinds, hnodup.2.1, fun hroot => ?_⟩
    obtain ⟨u, hu, rfl⟩ := bindsAt_nil.mp hroot
    exact hnodup.2.2 (by simp [hu]) hbinds.mem_introducedNames
  induction r generalizing t r' with
  | nil =>
    cases r' with
    | nil => rfl
    | cons j r' =>
      obtain ⟨-, -, -, -, hno⟩ := hchild ht h'
      exact absurd h hno
  | cons i r ih =>
    cases r' with
    | nil =>
      obtain ⟨-, -, -, -, hno⟩ := hchild ht h
      exact absurd h' hno
    | cons j r' =>
      obtain ⟨c, hc, hcr, hnodup, -⟩ := hchild ht h
      obtain ⟨d, hd, hdr, -, -⟩ := hchild ht h'
      by_cases hij : i = j
      · subst hij
        obtain rfl : c = d := Option.some.inj (hc.symm.trans hd)
        rw [ih hnodup hcr hdr]
      · exact absurd hdr.mem_introducedNames (disjoint_introducedNames ht hc hd hij
          hcr.mem_introducedNames)

theorem VariantOver.exists_bindsAt (h : s.VariantOver M t) {r : Place} {x : String}
    (hx : s.BindsAt r x) : ∃ y, t.BindsAt r y := by
  obtain ⟨m, v, hm, hv, -⟩ := hx
  obtain ⟨-, n, hn, hmn⟩ := h.at_place hm
  have hrel := hmn.head.introduced?
  rw [← introduced?_eq, hv] at hrel
  generalize hw : n.kind.introduced? = w? at hrel
  cases hrel with
  | @some _ w _ => exact ⟨w.name, n, w, hn, (introduced?_eq n).trans hw, rfl⟩

/-- If all that is visible at one place is visible at another, this is so in every variant. -/
theorem VariantOver.names_above_subset (h : s.VariantOver M t) (h' : t.VariantOver N s)
    (hs : g.Derived names S s) (hm : s.get? p = some m) (hn : s.get? q = some n)
    (hsub : ∀ x ∈ (s.variablesAbove p).map (·.name), x ∈ (s.variablesAbove q).map (·.name)) :
    ∀ y ∈ (t.variablesAbove p).map (·.name), y ∈ (t.variablesAbove q).map (·.name) := by
  obtain ⟨-, m', hm', -⟩ := h.at_place hm
  obtain ⟨-, n', hn', -⟩ := h.at_place hn
  intro y hy
  -- The binder of the name in the variant has its own name in the tree, and that is found above `q`.
  obtain ⟨r, i, q', hp, hr⟩ := (mem_names_above_iff hm').mp hy
  obtain ⟨x, hx⟩ := h'.exists_bindsAt hr
  obtain ⟨r', j, q'', hq, hr'⟩ := (mem_names_above_iff hn).mp
    (hsub x ((mem_names_above_iff hm).mpr ⟨r, i, q', hp, hx⟩))
  obtain rfl := hx.unique hs.fresh.nodup hr'
  exact (mem_names_above_iff hn').mpr ⟨r, j, q'', hq, hr⟩

end Names

end ScopedGrammar.Tree
