import ScopedGrammar.Proofs.Grammar.Scoring

/-!
# Fresh derivations

The trees of a grammar have binders with distinct issued names. Then the scope of each node holds
each name once, and every node has exactly one rule. Exchanging a subtree keeps this if the new one
is derived in the same scope and its binders have names of the old one or names not issued before.
-/
namespace ScopedGrammar

variable {K : Type}

section Names

namespace Tree

/-- Exchanging a subtree exchanges its names in the list of all names; the variables above it are
among the names in front. -/
theorem introducedNames_replace? {t t' n r : Tree K} {p : Place} (hn : t.get? p = some n)
    (ht' : t.replace? p r = some t') : ∃ pre post : List String,
      t.introducedNames = pre ++ n.introducedNames ++ post ∧
        t'.introducedNames = pre ++ r.introducedNames ++ post := by
  induction p generalizing t t' with
  | nil =>
    obtain rfl : t = n := by simpa using hn
    obtain rfl : r = t' := by simpa using ht'
    exact ⟨[], [], by simp, by simp⟩
  | cons i p ih =>
    obtain ⟨c, hc, hcn⟩ := get?_cons_eq_some.mp hn
    rw [replace?_cons, hc, Option.bind_some] at ht'
    obtain ⟨c', hc', rfl⟩ := Option.map_eq_some_iff.mp ht'
    obtain ⟨pre, post, hold, hnew⟩ := ih hcn hc'
    have hi := child?_eq_some.mp hc
    obtain ⟨nt, name, kind, args?⟩ := t
    cases args? with
    | none => simp at hi
    | some as =>
      obtain ⟨hlt, hget⟩ := List.getElem?_eq_some_iff.mp hi
      have hsplit : as = as.take i ++ .subtree c :: as.drop (i + 1) := by
        rw [← hget]
        simp
      have hset : as.set i (.subtree c') = as.take i ++ .subtree c' :: as.drop (i + 1) :=
        List.set_eq_take_append_cons_drop .. |>.trans (if_pos hlt)
      have happend : ∀ xs ys : List (Arg K), introducedNamesArgs (xs ++ ys) =
          introducedNamesArgs xs ++ introducedNamesArgs ys := by
        simp [introducedNamesArgs_eq]
      refine ⟨(kind.introduced?.map (·.name)).toList ++ introducedNamesArgs (as.take i) ++ pre,
        post ++ introducedNamesArgs (as.drop (i + 1)), ?_, ?_⟩
      · rw [introducedNames_node, Option.getD_some]
        conv_lhs => rw [hsplit]
        simp [happend, introducedNamesArgs, hold]
      · simp only [withArgs, args_node, Option.getD_some, introducedNames_node, hset]
        simp [happend, introducedNamesArgs, hnew]

/-- Names stay distinct if those of a new subtree are old ones of the place, or new to the tree. -/
theorem nodup_introducedNames_replace? {t t' n r : Tree K} {p : Place}
    (ht : t.introducedNames.Nodup) (hr : r.introducedNames.Nodup) (hn : t.get? p = some n)
    (hnew : ∀ x ∈ r.introducedNames, x ∈ n.introducedNames ∨ x ∉ t.introducedNames)
    (ht' : t.replace? p r = some t') : t'.introducedNames.Nodup := by
  obtain ⟨pre, post, hold, hnames⟩ := introducedNames_replace? hn ht'
  rw [hold, List.append_assoc] at hnew
  rw [hold, List.append_assoc, List.nodup_append', List.nodup_append'] at ht
  obtain ⟨hpre, ⟨-, hpost, hnpost⟩, hpren⟩ := ht
  rw [hnames, List.append_assoc, List.nodup_append', List.nodup_append']
  refine ⟨hpre, ⟨hr, hpost, fun x hx hx' => ?_⟩, fun x hx hx' => ?_⟩
  · rcases hnew x hx with hx | hx
    · exact hnpost hx hx'
    · exact hx (by simp [hx'])
  · rcases List.mem_append.mp hx' with hxr | hxpost
    · rcases hnew x hxr with hxn | hxt
      · exact hpren hx (List.mem_append_left _ hxn)
      · exact hxt (List.mem_append_left _ hx)
    · exact hpren hx (List.mem_append_right _ hxpost)

theorem sublist_introducedNames {t n : Tree K} {p : Place} (hn : t.get? p = some n) :
    n.introducedNames.Sublist t.introducedNames := by
  obtain ⟨pre, post, hold, -⟩ := introducedNames_replace? hn (replace?_self hn)
  rw [hold, List.append_assoc]
  exact (List.sublist_append_left _ _).trans (List.sublist_append_right _ _)

theorem sublist_introducedNames_child {t c : Tree K} (hc : .subtree c ∈ t.args) :
    (t.introduced?.toList.map (·.name) ++ c.introducedNames).Sublist t.introducedNames := by
  obtain ⟨nt, name, kind, args?⟩ := t
  obtain ⟨i, hi⟩ := List.getElem?_of_mem hc
  have hsub : c.introducedNames.Sublist (introducedNamesArgs (args?.getD [])) := by
    rw [introducedNamesArgs_eq]
    exact List.sublist_flatten_of_mem
      (List.mem_map_of_mem (List.mem_filterMap.mpr ⟨_, hc, rfl⟩))
  rw [introducedNames_node, introduced?_node]
  cases kind.introduced? with
  | none => simpa using hsub
  | some v => simpa using hsub

theorem mem_introducedNames_of_introduced? {t : Tree K} {v : Rule K}
    (hv : t.kind.introduced? = some v) : v.name ∈ t.introducedNames := by
  obtain ⟨nt, name, kind, args?⟩ := t
  have hv : kind.introduced? = some v := hv
  simp [introducedNames_node, hv]

theorem mem_introducedNames_of_variablesAbove {t : Tree K} {p : Place} {v : Rule K}
    (hv : v ∈ t.variablesAbove p) (hp : (t.get? p).isSome) : v.name ∈ t.introducedNames := by
  induction p generalizing t with
  | nil => simp at hv
  | cons i p ih =>
    cases hc : t.child? i with
    | none => simp [hc] at hp
    | some c =>
      have hsub := sublist_introducedNames_child (mem_args_of_child? hc)
      rw [variablesAbove_cons hc] at hv
      rcases List.mem_append.mp hv with hv | hv
      · exact hsub.subset (List.mem_append_left _ (List.mem_map_of_mem hv))
      · exact hsub.subset (List.mem_append_right _ (ih hv (by simpa [hc] using hp)))

end Tree

end Names

theorem Scope.below_kind (scope : Scope K) (t : Tree K) :
    scope.below t.kind = scope ++ t.introduced?.toList := by
  cases t
  rw [Tree.introduced?_node, Tree.kind_node, Scope.below_eq]

/-- The binders of a tree have distinct issued names that are not in use in its scope. -/
structure Tree.FreshIn (t : Tree K) (scope : Scope K) (names : NameSupply) : Prop where
  nodup : t.introducedNames.Nodup
  issued : ∀ x ∈ t.introducedNames, names.Issued x
  disjoint : ∀ x ∈ t.introducedNames, x ∉ scope.map (·.name)

/-- The binders of a tree have distinct names that are not in use in its scope, wherever these come
from. -/
structure Tree.DistinctIn (t : Tree K) (scope : Scope K) : Prop where
  nodup : t.introducedNames.Nodup
  disjoint : ∀ x ∈ t.introducedNames, x ∉ scope.map (·.name)

theorem Tree.FreshIn.distinctIn {t : Tree K} {scope : Scope K} {names : NameSupply}
    (h : t.FreshIn scope names) : t.DistinctIn scope := ⟨h.nodup, h.disjoint⟩

theorem Tree.DistinctIn.child {t c : Tree K} {scope : Scope K} (h : t.DistinctIn scope)
    (hc : .subtree c ∈ t.args) : c.DistinctIn (scope.below t.kind) := by
  have hsub := Tree.sublist_introducedNames_child hc
  have hnodup := h.nodup.sublist hsub
  refine ⟨hnodup.sublist (List.sublist_append_right _ _), fun x hx => ?_⟩
  rw [Scope.below_kind, List.map_append, List.mem_append, not_or]
  refine ⟨h.disjoint x (hsub.subset (List.mem_append_right _ hx)), fun hx' => ?_⟩
  exact (List.nodup_append'.mp hnodup).2.2 hx' hx

namespace Grammar

variable {g : Grammar K} {names : NameSupply} {scope : Scope K} {t c n : Tree K}

/-- A tree is derived in a scope, and all names around are distinct and issued. -/
structure Derived (g : Grammar K) (names : NameSupply) (scope : Scope K) (t : Tree K) : Prop where
  derives : g.Derives scope t
  fresh : t.FreshIn scope names
  wellNamed : scope.WellNamed names

namespace Derived

theorem mono {names' : NameSupply} (h : g.Derived names scope t)
    (hle : names.issued ≤ names'.issued) : g.Derived names' scope t :=
  ⟨h.derives, ⟨h.fresh.nodup, fun x hx => (h.fresh.issued x hx).mono hle, h.fresh.disjoint⟩,
    h.wellNamed.mono hle⟩

theorem wellNamed_below (h : g.Derived names scope t) : (scope.below t.kind).WellNamed names := by
  obtain ⟨⟨r, -, hinst⟩, -⟩ := derives_iff.mp h.derives
  rw [Scope.below_eq]
  cases hv : t.kind.introduced? with
  | none => simpa using h.wellNamed
  | some v =>
    have hmem := Tree.mem_introducedNames_of_introduced? hv
    exact h.wellNamed.append_singleton (hinst.makes.isVariableUse_introduced hv)
      (h.fresh.issued _ hmem) (h.fresh.disjoint _ hmem)

theorem child (h : g.Derived names scope t) (hc : .subtree c ∈ t.args) :
    g.Derived names (scope.below t.kind) c := by
  obtain ⟨-, hargs⟩ := derives_iff.mp h.derives
  obtain ⟨hnodup, hdisjoint⟩ := h.fresh.distinctIn.child hc
  have hissued := fun x hx => h.fresh.issued x
    ((Tree.sublist_introducedNames_child hc).subset (List.mem_append_right _ hx))
  exact ⟨hargs c hc, ⟨hnodup, hissued, hdisjoint⟩, h.wellNamed_below⟩

/-- Every subtree is derived in the scope of its place. -/
theorem at_place (h : g.Derived names scope t) {p : Place} (hn : t.get? p = some n) :
    g.Derived names (scope ++ t.variablesAbove p) n := by
  induction p generalizing scope t with
  | nil =>
    obtain rfl : t = n := by simpa using hn
    simpa using h
  | cons i p ih =>
    obtain ⟨c, hc, hcn⟩ := Tree.get?_cons_eq_some.mp hn
    have hchild := ih (h.child (Tree.mem_args_of_child? hc)) hcn
    rwa [Scope.below_kind, List.append_assoc, ← Tree.variablesAbove_cons hc] at hchild

/-- What holds of the weights with which variables are used holds below the root, too. -/
theorem forall_weight_below {P : K → Prop} (h : g.Derived names scope t)
    (huses : ∀ r ∈ g.table.allRules, ∀ spec, r.kind = .binder spec →
      P (spec.useWeight.getD g.variableWeight))
    (hscope : ∀ v ∈ scope, P v.weight) : ∀ v ∈ scope.below t.kind, P v.weight := by
  obtain ⟨⟨r, hr, hinst⟩, -⟩ := derives_iff.mp h.derives
  intro v hv
  rw [Scope.below_eq, List.mem_append, Option.mem_toList] at hv
  rcases hv with hv | hv
  · exact hscope v hv
  · obtain ⟨hr, spec, hspec, heq⟩ := hinst.makes.exists_binder hr h.wellNamed.isVariableUse hv
    rw [heq]
    exact huses r hr spec hspec

theorem forall_weight_above {P : K → Prop} (h : g.Derived names scope t)
    (huses : ∀ r ∈ g.table.allRules, ∀ spec, r.kind = .binder spec →
      P (spec.useWeight.getD g.variableWeight))
    (hscope : ∀ v ∈ scope, P v.weight) {p : Place} (hn : t.get? p = some n) :
    ∀ v ∈ scope ++ t.variablesAbove p, P v.weight := by
  induction p generalizing scope t with
  | nil => simpa using hscope
  | cons i p ih =>
    obtain ⟨c, hc, hcn⟩ := Tree.get?_cons_eq_some.mp hn
    have hbelow := ih (h.child (Tree.mem_args_of_child? hc))
      (h.forall_weight_below huses hscope) hcn
    rwa [Scope.below_kind, List.append_assoc, ← Tree.variablesAbove_cons hc] at hbelow

theorem exists_rule (h : g.Derived names scope t) (hdist : g.DistinctSignatures)
    (hres : g.NoReservedNames) : ∃ r ∈ g.visibleRules t.nonterminal scope,
      g.IsInstance r t ∧ g.ruleForNode scope t = .ok r := by
  obtain ⟨⟨r, hr, hinst⟩, -⟩ := derives_iff.mp h.derives
  exact ⟨r, hr, hinst, ruleForNode_eq_ok hdist hres h.wellNamed hr hinst⟩

theorem name_mem_scope (h : g.Derived names scope t) (huse : t.isVariableUse = true) :
    t.name ∈ scope.map (·.name) := by
  obtain ⟨⟨r, hr, hinst⟩, -⟩ := derives_iff.mp h.derives
  have hrule := hinst.makes.isVariableUse_eq.mpr (isVariableUse_iff_kind.mp huse)
  rcases mem_visibleRules.mp hr with hr | ⟨hr, -⟩
  · simp [g.table.not_variableUse _ r hr] at hrule
  · exact hinst.name_eq ▸ List.mem_map_of_mem hr

/-- A free variable comes from the scope. -/
theorem mem_scope_of_mem_freeUses (h : g.Derived names scope t) {x : String}
    (hx : x ∈ t.freeUses []) : x ∈ scope.map (·.name) := by
  induction t using Tree.induction generalizing scope with
  | node nt name kind args? ih =>
    rcases Tree.mem_freeUses_iff.mp hx with ⟨hkind, rfl⟩ | ⟨hne, c, hc, hx⟩
    · exact h.name_mem_scope (isVariableUse_iff_kind.mpr hkind)
    · have hbelow := ih c hc (h.child hc) hx
      rw [Scope.below_kind, List.map_append, List.mem_append] at hbelow
      refine hbelow.resolve_right fun hmem => ?_
      obtain ⟨v, hv, rfl⟩ := List.mem_map.mp hmem
      exact hne v (Option.mem_toList.mp hv) rfl

/-- A tree that is derived with no variable in scope is closed. -/
theorem freeVariables_eq_nil (h : g.Derived names [] t) : t.freeVariables = [] :=
  Tree.freeVariables_eq_nil_iff.mpr fun x hx => by simpa using h.mem_scope_of_mem_freeUses hx

theorem isVariableUse_at (h : g.Derived names scope t) {p : Place} (hn : t.get? p = some n)
    (huse : n.isVariableUse = true) : n.name ∈ (scope ++ t.variablesAbove p).map (·.name) :=
  (h.at_place hn).name_mem_scope huse

theorem mem_introducedNames_of_use (h : g.Derived names [] t) {p : Place} (hn : t.get? p = some n)
    (huse : n.isVariableUse = true) : n.name ∈ t.introducedNames := by
  have hmem := h.isVariableUse_at hn huse
  rw [List.nil_append] at hmem
  obtain ⟨v, hv, hname⟩ := List.mem_map.mp hmem
  exact hname ▸ Tree.mem_introducedNames_of_variablesAbove hv (by simp [hn])

end Derived

section Scoring

variable [Scalar K]

theorem Derived.exists_logProbabilityIn (h : g.Derived names scope t)
    (hdist : g.DistinctSignatures) (hres : g.NoReservedNames) :
    ∃ lp, g.logProbabilityIn scope t = .ok lp := by
  refine exists_logProbabilityIn_iff.mpr fun p n hn => ?_
  obtain ⟨r, -, -, hr⟩ := (h.at_place hn).exists_rule hdist hres
  exact ⟨r, hr⟩

end Scoring

section Terms

variable [Scalar K]

/-- The constant as a term. -/
def constantTerm : Tree K := .node "T" "c" .plain none

/-- The function that returns its argument. -/
def identityTerm : Tree K :=
  .node "T" "fn" (.binder ⟨"T", NameSupply.nameOf 0, none, 1, .variableUse "y"⟩)
    (some [.subtree (.node "T" (NameSupply.nameOf 0) .variableUse none)])

/-- The function that returns the constant. -/
def constantMapTerm : Tree K :=
  .node "T" "fn" (.binder ⟨"T", NameSupply.nameOf 1, none, 1, .variableUse "y"⟩)
    (some [.subtree constantTerm])

theorem mem_visibleRules_terms {S : Scope K} {r : Rule K}
    (h : r ∈ (terms : Grammar K).table.allRules) : r ∈ (terms : Grammar K).visibleRules "T" S :=
  mem_visibleRules.mpr (.inl (rulesFor_terms (K := K) ▸ h))

theorem derives_constantTerm (S : Scope K) : (terms : Grammar K).Derives S constantTerm := by
  refine .node ⟨"T", "c", none, 1, .plain⟩ ?_ ⟨rfl, rfl⟩ (by simp [constantTerm])
  exact mem_visibleRules_terms (by simp [allRules_terms])

theorem derived_constantTerm (names : NameSupply) :
    (terms : Grammar K).Derived names [] constantTerm := by
  refine ⟨derives_constantTerm [], ⟨?_, ?_, ?_⟩, .nil⟩
  all_goals simp [constantTerm, Tree.introducedNames]

theorem derived_identityTerm : (terms : Grammar K).Derived ⟨1⟩ [] identityTerm := by
  refine ⟨.node ⟨"T", "fn", some ["T"], 1, .binder ⟨"T", none, "y", none⟩⟩ ?_ ⟨rfl, ?_⟩ ?_,
    ⟨?_, ?_, ?_⟩, .nil⟩
  · exact mem_visibleRules_terms (by simp [allRules_terms])
  · exact ⟨_, rfl⟩
  · intro c hc
    obtain rfl : c = .node "T" (NameSupply.nameOf 0) .variableUse none := by
      simpa [identityTerm] using hc
    refine .node ⟨"T", NameSupply.nameOf 0, none, 1, .variableUse "y"⟩ ?_ ⟨rfl, rfl⟩ (by simp)
    exact mem_visibleRules.mpr (.inr ⟨by simp [identityTerm, Scope.below], rfl⟩)
  · simp [identityTerm, Tree.introducedNames, Tree.introducedNamesArgs]
  · simp [identityTerm, Tree.introducedNames, Tree.introducedNamesArgs, NameSupply.Issued]
  · simp

theorem derived_constantMapTerm : (terms : Grammar K).Derived ⟨2⟩ [] constantMapTerm := by
  have hnames : (constantMapTerm : Tree K).introducedNames = [NameSupply.nameOf 1] := rfl
  refine ⟨.node ⟨"T", "fn", some ["T"], 1, .binder ⟨"T", none, "y", none⟩⟩ ?_ ⟨rfl, ?_⟩ ?_,
    ⟨?_, ?_, ?_⟩, .nil⟩
  · exact mem_visibleRules_terms (by simp [allRules_terms])
  · exact ⟨_, rfl⟩
  · intro c hc
    obtain rfl : c = constantTerm := by simpa [constantMapTerm] using hc
    exact derives_constantTerm _
  · simp [hnames]
  · intro x hx
    obtain rfl : x = NameSupply.nameOf 1 := by simpa [hnames] using hx
    exact ⟨1, by decide, rfl⟩
  · simp

end Terms

end Grammar

end ScopedGrammar
