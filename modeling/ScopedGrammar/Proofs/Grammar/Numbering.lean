import ScopedGrammar.Grammar.Packed
import ScopedGrammar.Proofs.Tree.Agreement
import ScopedGrammar.Proofs.Tree.Renamed

/-!
# The numbers of nodes

In a scope the rules that can be named are numbered: the fixed rules row by row, then the variables
from the outermost on. A node has the number of the rule that made it. In a tree whose binders have
names of their own each node has exactly one number, and it is the same in every variant: a use of a
variable counts the binders around the one of the variable, whatever these are called.
-/
namespace ScopedGrammar

variable {K : Type}

theorem Rows.rulesFor_of_mem {rows : Rows K} (hnodup : rows.nonterminals.Nodup)
    {row : String × List (Rule K)} (hrow : row ∈ rows) : rows.rulesFor row.1 = row.2 := by
  induction rows with
  | nil => simp at hrow
  | cons first rows ih =>
    obtain ⟨hfirst, hrows⟩ := List.nodup_cons.mp hnodup
    rw [rulesFor]
    rcases List.mem_cons.mp hrow with rfl | hrow
    · rw [if_pos rfl]
    · have hne : first.1 ≠ row.1 := fun heq => hfirst (List.mem_map.mpr ⟨row, hrow, heq.symm⟩)
      rw [if_neg hne, ih hrows hrow]

theorem RuleTable.mem_rulesFor_of_mem_allRules {table : RuleTable K} {r : Rule K}
    (h : r ∈ table.allRules) : r ∈ table.rulesFor r.nonterminal := by
  obtain ⟨row, hrow, hr⟩ := List.mem_flatMap.mp h
  rw [← Rows.rulesFor_of_mem table.nodup hrow] at hr
  exact table.nonterminal_eq _ r hr ▸ hr

theorem RuleTable.isVariableUse_of_mem_allRules {table : RuleTable K} {r : Rule K}
    (h : r ∈ table.allRules) : r.isVariableUse = false :=
  table.not_variableUse _ r (mem_rulesFor_of_mem_allRules h)

namespace Grammar

variable {g : Grammar K} {names names' : NameSupply} {S T : Scope K} {M : Matching}
  {s t m n : Tree K} {p q : Place} {r : Rule K} {i j : ℕ}

/-- The rules that can be named in a scope, by their numbers. -/
def numbered (g : Grammar K) (scope : Scope K) : List (Rule K) := g.table.allRules ++ scope

theorem numbered_below (g : Grammar K) (scope : Scope K) (kind : NodeKind K) :
    g.numbered (scope.below kind) = Scope.below (g.numbered scope) kind := by
  rw [numbered, numbered, Scope.below_eq, Scope.below_eq, List.append_assoc]

theorem mem_visibleRules_iff_numbered {nt : String} :
    r ∈ g.visibleRules nt S ↔ r ∈ g.numbered S ∧ r.nonterminal = nt := by
  rw [mem_visibleRules, numbered, List.mem_append]
  constructor
  · rintro (h | ⟨h, hnt⟩)
    · exact ⟨.inl (mem_allRules_of_mem_rulesFor h), g.table.nonterminal_eq nt r h⟩
    · exact ⟨.inr h, hnt⟩
  · rintro ⟨h | h, rfl⟩
    · exact .inl (RuleTable.mem_rulesFor_of_mem_allRules h)
    · exact .inr ⟨h, rfl⟩

theorem nodup_numbered (hdist : g.DistinctSignatures) (hres : g.NoReservedNames)
    (hS : S.WellNamed names) : ((g.numbered S).map Rule.signature).Nodup := by
  rw [numbered, List.map_append]
  refine List.nodup_append'.mpr ⟨hdist, ?_, fun sig hfixed hvar => ?_⟩
  · refine .of_map Signature.name ?_
    rw [List.map_map]
    exact hS.nodup
  · obtain ⟨r, hr, rfl⟩ := List.mem_map.mp hfixed
    obtain ⟨v, hv, hsig⟩ := List.mem_map.mp hvar
    obtain ⟨k, -, hk⟩ := hS.issued v hv
    exact hres r hr k ((congrArg Signature.name hsig).symm.trans hk)

theorem exists_numbered_counterpart {r' : Rule K} (hal : Scope.Aligned M S T)
    (hT : T.WellNamed names) (hi : (g.numbered T)[i]? = some r') :
    ∃ r, (g.numbered S)[i]? = some r ∧ r.CounterpartOver M r' := by
  have hall : List.Forall₂ (Rule.CounterpartOver M) (g.numbered S) (g.numbered T) := by
    refine List.rel_append (List.forall₂_same.mpr fun r hr => ?_) ?_
    · exact .of_fixed (RuleTable.isVariableUse_of_mem_allRules hr)
    · exact hal.forall₂_counterpart hT.isVariableUse
  have hrel := forall₂_iff_getElem?.mp hall i
  rw [hi] at hrel
  revert hrel
  generalize (g.numbered S)[i]? = r?
  rintro ⟨hr⟩
  exact ⟨_, rfl, hr⟩

/-- A rule has one number. -/
theorem number_unique {r' : Rule K} (hnodup : ((g.numbered S).map Rule.signature).Nodup)
    (hi : (g.numbered S)[i]? = some r) (hj : (g.numbered S)[j]? = some r')
    (hsig : r.signature = r'.signature) : i = j := by
  refine (List.getElem?_inj ?_ hnodup).mp ?_
  · simpa using (List.getElem?_eq_some_iff.mp hi).1
  · rw [List.getElem?_map, List.getElem?_map, hi, hj, Option.map_some, Option.map_some, hsig]

/-- A number belongs to a fixed rule, or to the variable that so many binders enclose. -/
theorem numbered_cases (h : (g.numbered S)[i]? = some r) : g.table.allRules[i]? = some r ∨
    ∃ k, i = g.ruleCount + k ∧ S[k]? = some r := by
  rw [numbered, List.getElem?_append] at h
  split at h
  · exact .inl h
  · exact .inr ⟨i - g.ruleCount, by simp only [ruleCount]; omega, h⟩

theorem numbered_fixed (h : g.table.allRules[i]? = some r) (S : Scope K) :
    (g.numbered S)[i]? = some r := by
  rw [numbered, List.getElem?_append_left (List.getElem?_eq_some_iff.mp h).1, h]

theorem numbered_variable {k : ℕ} (h : S[k]? = some r) :
    (g.numbered S)[g.ruleCount + k]? = some r := by
  rw [numbered, ruleCount, List.getElem?_append_right (Nat.le_add_right ..), Nat.add_sub_cancel_left,
    h]

/-- The number of a rule that made a node in its scope. -/
def Numbers (g : Grammar K) (i : ℕ) (node : Place × Tree K × Scope K) : Prop :=
  ∃ r, (g.numbered node.2.2)[i]? = some r ∧ g.IsInstance r node.2.1

theorem Numbers.unique (hnodup : ((g.numbered S).map Rule.signature).Nodup)
    (hi : g.Numbers i (p, n, S)) (hj : g.Numbers j (p, n, S)) : i = j := by
  obtain ⟨r, hr, hinst⟩ := hi
  obtain ⟨r', hr', hinst'⟩ := hj
  exact number_unique hnodup hr hr' (hinst.signature_eq.trans hinst'.signature_eq.symm)

theorem Derived.exists_numbers_root (h : g.Derived names S n) : ∃ i, g.Numbers i (p, n, S) := by
  obtain ⟨⟨r, hr, hinst⟩, -⟩ := derives_iff.mp h.derives
  obtain ⟨i, hi⟩ := List.getElem?_of_mem (mem_visibleRules_iff_numbered.mp hr).1
  exact ⟨i, r, hi, hinst⟩

theorem Derived.exists_numbers (h : g.Derived names S t) :
    ∃ indices, List.Forall₂ g.Numbers indices (t.nodesInScope S) := by
  refine exists_forall₂ fun ⟨p, n, U⟩ hx => ?_
  obtain ⟨hn, rfl⟩ := Tree.mem_nodesInScope.mp hx
  exact (h.at_place hn).exists_numbers_root

/-- Corresponding nodes have the same number. -/
theorem Numbers.eq_of_variantOver (hdist : g.DistinctSignatures) (hres : g.NoReservedNames)
    (hS : S.WellNamed names) (hT : T.WellNamed names') (hal : Scope.Aligned M S T)
    (hi : g.Numbers i (p, m, S)) (hj : g.Numbers j (q, n, T)) (h : m.VariantOver M n) : i = j := by
  obtain ⟨r, hr, hinst⟩ := hi
  obtain ⟨r', hr', hinst'⟩ := hj
  have hkind := h.head.kind
  have huse : r.isVariableUse = true ↔ r'.isVariableUse = true := by
    rw [hinst.makes.isVariableUse_eq, hinst'.makes.isVariableUse_eq]
    cases hm : m.kind <;> cases hn : n.kind <;> simp_all [NodeKind.VariantOver]
  rcases numbered_cases hr with hfixed | ⟨k, rfl, hk⟩ <;>
    rcases numbered_cases hr' with hfixed' | ⟨l, rfl, hl⟩
  · have hrfixed := RuleTable.isVariableUse_of_mem_allRules (List.mem_of_getElem? hfixed)
    have hname : m.name = n.name := by
      have hm : m.kind ≠ .variableUse := fun hm => by
        simp [hinst.makes.isVariableUse_eq.mpr hm] at hrfixed
      cases hm : m.kind <;> cases hn : n.kind <;> simp_all [NodeKind.VariantOver]
    refine number_unique (nodup_numbered hdist hres hS) hr (numbered_fixed hfixed' S) ?_
    rw [hinst.signature_eq, hinst'.signature_eq, h.signature_eq hname]
  · have hrfixed := RuleTable.isVariableUse_of_mem_allRules (List.mem_of_getElem? hfixed)
    have hruse := huse.mpr (hT.isVariableUse r' (List.mem_of_getElem? hl))
    simp [hrfixed] at hruse
  · have hrfixed := RuleTable.isVariableUse_of_mem_allRules (List.mem_of_getElem? hfixed')
    have hruse := huse.mp (hS.isVariableUse r (List.mem_of_getElem? hk))
    simp [hrfixed] at hruse
  · have hm := hinst.makes.isVariableUse_eq.mp (hS.isVariableUse r (List.mem_of_getElem? hk))
    have hn := hinst'.makes.isVariableUse_eq.mp (hT.isVariableUse r' (List.mem_of_getElem? hl))
    rw [hm, hn] at hkind
    have hnames : M r.name r'.name := by
      rw [hinst.name_eq, hinst'.name_eq]
      exact hkind
    rw [(hal.names k l r r' hk hl).mp hnames]

/-- Variants have the same numbers. -/
theorem numbers_eq_of_variant (hdist : g.DistinctSignatures) (hres : g.NoReservedNames)
    (hs : g.Derived names [] s) (ht : g.Derived names' [] t) (h : s.Variant t) {is js : List ℕ}
    (his : List.Forall₂ g.Numbers is (s.nodesInScope []))
    (hjs : List.Forall₂ g.Numbers js (t.nodesInScope [])) : is = js := by
  rw [Tree.nodesInScope_eq, List.forall₂_map_right_iff] at his hjs
  rw [← List.forall₂_eq_eq_eq]
  refine forall₂_trans (forall₂_trans his (Tree.VariantOver.forall₂_subnodes h)
    (U := fun i b => ∃ a : Place × Tree K, g.Numbers i (a.1, a.2, [] ++ s.variablesAbove a.1) ∧
      a.1 = b.1 ∧ s.get? a.1 = some a.2 ∧ t.get? a.1 = some b.2) ?_) hjs.flip ?_
  · exact fun i _ a b hi hab => ⟨a, hi, hab⟩
  · rintro i - ⟨q, n⟩ j ⟨⟨p, m⟩, hi, rfl, hm, hn⟩ hj
    obtain ⟨hagree, n', hn', hmn⟩ := Tree.VariantOver.at_place h hm
    obtain rfl : n' = n := Option.some.inj (hn'.symm.trans hn)
    exact hi.eq_of_variantOver hdist hres (hs.at_place hm).wellNamed (ht.at_place hn).wellNamed
      (hagree.headsAlong.aligned hs ht (.nil _)) hj hmn

section Places

/-- The variables above a place by the binders that introduce them: each has the position of so many
binders as there are above its own. -/
theorem getElem?_variablesAbove {t n : Tree K} {p : Place} (hn : t.get? p = some n) {k : ℕ}
    {v : Rule K} : (t.variablesAbove p)[k]? = some v ↔ ∃ q j rest m, p = q ++ j :: rest ∧
      t.get? q = some m ∧ m.introduced? = some v ∧ (t.variablesAbove q).length = k := by
  constructor
  · intro h
    induction p generalizing t k with
    | nil => simp at h
    | cons i p ih =>
      obtain ⟨c, hc, hcn⟩ := Tree.get?_cons_eq_some.mp hn
      rw [Tree.variablesAbove_cons hc, List.getElem?_append] at h
      split at h
      · next hk =>
        have hv : t.introduced? = some v := Option.mem_toList.mp (List.mem_of_getElem? h)
        refine ⟨[], i, p, t, rfl, Tree.get?_nil t, hv, ?_⟩
        have hzero : k = 0 := by simpa [hv] using hk
        simp [hzero]
      · next hk =>
        obtain ⟨q, j, rest, m, rfl, hm, hv, hlen⟩ := ih hcn h
        refine ⟨i :: q, j, rest, m, rfl, by simp [hc, hm], hv, ?_⟩
        rw [Tree.variablesAbove_cons hc, List.length_append, hlen]
        omega
  · rintro ⟨q, j, rest, m, rfl, hm, hv, rfl⟩
    rw [Tree.get?_append, hm, Option.bind_some] at hn
    obtain ⟨c, hc, -⟩ := Tree.get?_cons_eq_some.mp hn
    rw [Tree.variablesAbove_append hm, Tree.variablesAbove_cons hc, hv,
      List.getElem?_append_right (Nat.le_refl _), Nat.sub_self]
    rfl

/-- The index of a node of a closed tree: the position of its fixed rule, or the number of fixed
rules plus the number of binders that enclose the one of its variable. -/
inductive NodeIndex (g : Grammar K) (t : Tree K) (p : Place) : ℕ → Prop
  | fixed {n : Tree K} {r : Rule K} {i : ℕ} (node : t.get? p = some n)
      (rule : g.table.allRules[i]? = some r) (instance_of : g.IsInstance r n) : NodeIndex g t p i
  | use {n : Tree K} {q rest : Place} {j : ℕ} (node : t.get? p = some n)
      (isVariableUse : n.isVariableUse = true) (above : p = q ++ j :: rest)
      (binder : t.BindsAt q n.name) : NodeIndex g t p (g.ruleCount + (t.variablesAbove q).length)

theorem NodeIndex.exists_get? (h : g.NodeIndex t p i) : ∃ n, t.get? p = some n := by
  cases h with
  | fixed hn => exact ⟨_, hn⟩
  | use hn => exact ⟨_, hn⟩

theorem nodeIndex_iff (ht : g.Derived names [] t) (hn : t.get? p = some n) :
    g.NodeIndex t p i ↔ g.Numbers i (p, n, t.variablesAbove p) := by
  have hscope : Scope.WellNamed (t.variablesAbove p) names := (ht.at_place hn).wellNamed
  constructor
  · intro h
    cases h with
    | fixed hm hr hinst =>
      obtain rfl := Option.some.inj (hn.symm.trans hm)
      exact ⟨_, numbered_fixed hr _, hinst⟩
    | use hm huse hp hbinds =>
      obtain rfl := Option.some.inj (hn.symm.trans hm)
      obtain ⟨m, v, hm, hv, hname⟩ := hbinds
      have hpos := (getElem?_variablesAbove hn).mpr ⟨_, _, _, m, hp, hm, hv, rfl⟩
      -- The node is made by a variable of its scope, and no other has the name.
      obtain ⟨⟨r, hr, hinst⟩, -⟩ := derives_iff.mp (ht.at_place hn).derives
      have hruse := hinst.makes.isVariableUse_eq.mpr (isVariableUse_iff_kind.mp huse)
      rcases Grammar.mem_visibleRules.mp hr with hr | ⟨hr, -⟩
      · simp [g.table.not_variableUse _ r hr] at hruse
      · obtain rfl : r = v := hscope.eq_of_name_eq hr (List.mem_of_getElem? hpos)
          (hinst.name_eq.trans hname.symm)
        exact ⟨r, numbered_variable hpos, hinst⟩
  · rintro ⟨r, hr, hinst⟩
    rcases numbered_cases hr with hr | ⟨k, rfl, hk⟩
    · exact .fixed hn hr hinst
    · obtain ⟨q, j, rest, m, hp, hm, hv, rfl⟩ := (getElem?_variablesAbove hn).mp hk
      have huse := hinst.makes.isVariableUse_eq.mp
        (hscope.isVariableUse r (List.mem_of_getElem? hk))
      exact .use hn (isVariableUse_iff_kind.mpr huse) hp ⟨m, r, hm, hv, hinst.name_eq⟩

theorem Derived.existsUnique_nodeIndex (ht : g.Derived names [] t) (hdist : g.DistinctSignatures)
    (hres : g.NoReservedNames) (hn : t.get? p = some n) : ∃! i, g.NodeIndex t p i := by
  have hdn : g.Derived names (t.variablesAbove p) n := ht.at_place hn
  obtain ⟨i, hi⟩ := hdn.exists_numbers_root (p := p)
  refine ⟨i, (nodeIndex_iff ht hn).mpr hi, fun j hj => ?_⟩
  exact ((nodeIndex_iff ht hn).mp hj).unique (nodup_numbered hdist hres hdn.wellNamed) hi

/-- The numbers of the nodes of a closed tree are the indices of its places. -/
theorem Derived.mem_indices_iff (ht : g.Derived names [] t) (hdist : g.DistinctSignatures)
    (hres : g.NoReservedNames) {indices : List ℕ}
    (h : List.Forall₂ g.Numbers indices (t.nodesInScope [])) :
    i ∈ indices ↔ ∃ p, g.NodeIndex t p i := by
  constructor
  · intro hi
    obtain ⟨⟨p, n, S⟩, hx, hnumber⟩ := exists_of_forall₂ h.flip i hi
    obtain ⟨hn, rfl⟩ := Tree.mem_nodesInScope.mp hx
    exact ⟨p, (nodeIndex_iff ht hn).mpr hnumber⟩
  · rintro ⟨p, hi⟩
    obtain ⟨n, hn⟩ := hi.exists_get?
    obtain ⟨j, hj, hnumber⟩ := exists_of_forall₂ h (p, n, t.variablesAbove p)
      (Tree.mem_nodesInScope.mpr ⟨hn, rfl⟩)
    have hscope : Scope.WellNamed (t.variablesAbove p) names := (ht.at_place hn).wellNamed
    obtain rfl := ((nodeIndex_iff ht hn).mp hi).unique (nodup_numbered hdist hres hscope) hnumber
    exact hj

end Places

end Grammar

end ScopedGrammar
