import ScopedGrammar.Proofs.Lists
import ScopedGrammar.Proofs.NameSupply
import ScopedGrammar.Proofs.Tree.Structure

/-!
# Derivations

A tree is derived in a scope if each of its nodes is an instance of a rule that is visible in the
scope of the node. Where fixed rules have distinct signatures and none is named like a variable,
the rule of a node is found again by its signature, so it is the only one.
-/
namespace ScopedGrammar

variable {K : Type}

namespace Grammar

/-- The rule of the variable that a binder introduces under a name. -/
def variableOf (g : Grammar K) (spec : BinderSpec K) (name : String) : Rule K :=
  ⟨spec.boundType, name, spec.boundArgs, spec.useWeight.getD g.variableWeight,
    .variableUse spec.stem⟩

/-- A rule makes nodes of this kind. The variable of a binder may have any name. -/
def Makes (g : Grammar K) (r : Rule K) (kind : NodeKind K) : Prop :=
  match r.kind with
  | .plain => kind = .plain
  | .variableUse _ => kind = .variableUse
  | .binder spec => ∃ name, kind = .binder (g.variableOf spec name)

/-- The root of a tree comes from a rule: it has the nonterminal, the name, the argument symbols
and the kind that the rule says. -/
structure IsInstance (g : Grammar K) (r : Rule K) (t : Tree K) : Prop where
  signature_eq : r.signature = t.signature
  makes : g.Makes r t.kind

/-- Every node of a tree is an instance of a rule visible in its scope. -/
inductive Derives (g : Grammar K) : Scope K → Tree K → Prop
  | node {scope : Scope K} {t : Tree K} (r : Rule K)
      (visible : r ∈ g.visibleRules t.nonterminal scope) (instance_of : g.IsInstance r t)
      (args : ∀ c, .subtree c ∈ t.args → g.Derives (scope.below t.kind) c) : g.Derives scope t

/-- The fixed rules can be told apart by their signatures. -/
def DistinctSignatures (g : Grammar K) : Prop := (g.table.allRules.map Rule.signature).Nodup

/-- No fixed rule has a name that the supply of names may issue. -/
def NoReservedNames (g : Grammar K) : Prop :=
  ∀ r ∈ g.table.allRules, ∀ n, r.name ≠ NameSupply.nameOf n

theorem derives_iff {g : Grammar K} {scope : Scope K} {t : Tree K} :
    g.Derives scope t ↔ (∃ r ∈ g.visibleRules t.nonterminal scope, g.IsInstance r t) ∧
      ∀ c, .subtree c ∈ t.args → g.Derives (scope.below t.kind) c := by
  constructor
  · rintro ⟨r, hr, hinst, hargs⟩
    exact ⟨⟨r, hr, hinst⟩, hargs⟩
  · rintro ⟨⟨r, hr, hinst⟩, hargs⟩
    exact .node r hr hinst hargs

end Grammar

/-- A scope as it arises below binders: uses of variables with distinct issued names. -/
structure Scope.WellNamed (scope : Scope K) (names : NameSupply) : Prop where
  isVariableUse : ∀ v ∈ scope, v.isVariableUse = true
  nodup : (scope.map (·.name)).Nodup
  issued : ∀ v ∈ scope, names.Issued v.name

namespace Scope.WellNamed

variable {scope : Scope K} {names : NameSupply}

theorem nil : Scope.WellNamed ([] : Scope K) names := ⟨by simp, by simp, by simp⟩

theorem mono {names' : NameSupply} (h : scope.WellNamed names)
    (hle : names.issued ≤ names'.issued) : scope.WellNamed names' :=
  ⟨h.isVariableUse, h.nodup, fun v hv => (h.issued v hv).mono hle⟩

theorem append_singleton {v : Rule K} (h : scope.WellNamed names) (hv : v.isVariableUse = true)
    (hissued : names.Issued v.name) (hnew : v.name ∉ scope.map (·.name)) :
    Scope.WellNamed (scope ++ [v]) names := by
  refine ⟨?_, ?_, ?_⟩
  · intro u hu
    rcases List.mem_append.mp hu with hu | hu
    · exact h.isVariableUse u hu
    · exact List.mem_singleton.mp hu ▸ hv
  · rw [List.map_append, List.nodup_append']
    exact ⟨h.nodup, by simp, by simpa using hnew⟩
  · intro u hu
    rcases List.mem_append.mp hu with hu | hu
    · exact h.issued u hu
    · exact List.mem_singleton.mp hu ▸ hissued

theorem eq_of_name_eq (h : scope.WellNamed names) {u v : Rule K} (hu : u ∈ scope) (hv : v ∈ scope)
    (heq : u.name = v.name) : u = v :=
  List.inj_on_of_nodup_map h.nodup hu hv heq

end Scope.WellNamed

/-- Looking up a signature through the index finds what a scan of the row finds. -/
theorem RuleTable.withSignature_eq (t : RuleTable K) (s : Signature) :
    t.withSignature s = (t.rulesFor s.nonterminal).filter fun r => r.signature = s := by
  rw [withSignature, t.positions_eq]
  exact filter_zipIdx_getElem? (fun r : Rule K => decide (r.signature = s)) []
    (t.rulesFor s.nonterminal)

theorem Rows.sublist_of_rulesFor (rows : Rows K) (nt : String) :
    (rows.rulesFor nt).Sublist (rows.flatMap (·.2)) := by
  induction rows with
  | nil => simp [rulesFor]
  | cons row rows ih =>
    rw [rulesFor, List.flatMap_cons]
    split
    · exact List.sublist_append_left _ _
    · exact ih.trans (List.sublist_append_right _ _)

namespace Grammar

variable {g : Grammar K} {scope : Scope K} {t : Tree K} {r : Rule K} {nt : String}

theorem mem_visibleRules : r ∈ g.visibleRules nt scope ↔
    r ∈ g.table.rulesFor nt ∨ r ∈ scope ∧ r.nonterminal = nt := by
  simp [visibleRules, Scope.rulesOf]

theorem nonterminal_of_mem_visibleRules (h : r ∈ g.visibleRules nt scope) : r.nonterminal = nt :=
  (mem_visibleRules.mp h).elim (g.table.nonterminal_eq nt r) And.right

theorem mem_allRules_of_mem_rulesFor (h : r ∈ g.table.rulesFor nt) : r ∈ g.table.allRules :=
  (Rows.sublist_of_rulesFor g.table.rows nt).subset h

theorem DistinctSignatures.nodup_rulesFor (h : g.DistinctSignatures) (nt : String) :
    ((g.table.rulesFor nt).map Rule.signature).Nodup :=
  List.Nodup.sublist ((Rows.sublist_of_rulesFor g.table.rows nt).map _) h

theorem nodup_visibleRules {names : NameSupply} (hdist : g.DistinctSignatures)
    (hscope : scope.WellNamed names) : (g.visibleRules nt scope).Nodup := by
  refine List.nodup_append'.mpr ⟨.of_map _ (hdist.nodup_rulesFor nt),
    (List.Nodup.of_map _ hscope.nodup).sublist List.filter_sublist, fun r hr hr' => ?_⟩
  have huse := hscope.isVariableUse r (List.mem_of_mem_filter hr')
  simp [g.table.not_variableUse nt r hr] at huse

theorem Makes.isVariableUse_eq {kind : NodeKind K} (h : g.Makes r kind) :
    r.isVariableUse = true ↔ kind = .variableUse := by
  unfold Makes at h
  unfold Rule.isVariableUse
  split at h <;> simp_all
  obtain ⟨name, rfl⟩ := h
  simp

/-- A variable is introduced only under a rule for binders, as its specification says. -/
theorem Makes.of_introduced {v : Rule K} {kind : NodeKind K} (h : g.Makes r kind)
    (hv : kind.introduced? = some v) :
    ∃ spec, r.kind = .binder spec ∧ v = g.variableOf spec v.name := by
  unfold Makes at h
  cases hk : r.kind with
  | plain => simp_all [NodeKind.introduced?]
  | variableUse stem => simp_all [NodeKind.introduced?]
  | binder spec =>
    simp only [hk] at h
    obtain ⟨name, rfl⟩ := h
    cases hv
    exact ⟨spec, rfl, rfl⟩

theorem Makes.isVariableUse_introduced {v : Rule K} {kind : NodeKind K} (h : g.Makes r kind)
    (hv : kind.introduced? = some v) : v.isVariableUse = true := by
  obtain ⟨spec, -, heq⟩ := h.of_introduced hv
  rw [heq]
  rfl

theorem Makes.exists_binder {v : Rule K} {kind : NodeKind K} (h : g.Makes r kind)
    (hr : r ∈ g.visibleRules nt scope) (hscope : ∀ v ∈ scope, v.isVariableUse = true)
    (hv : kind.introduced? = some v) :
    r ∈ g.table.allRules ∧ ∃ spec, r.kind = .binder spec ∧ v = g.variableOf spec v.name := by
  obtain ⟨spec, hspec, heq⟩ := h.of_introduced hv
  rcases mem_visibleRules.mp hr with hr | ⟨hr, -⟩
  · exact ⟨mem_allRules_of_mem_rulesFor hr, spec, hspec, heq⟩
  · have huse := hscope r hr
    rw [Rule.isVariableUse, hspec] at huse
    cases huse

theorem forall_weight_visible {P : K → Prop} (hrules : ∀ r ∈ g.table.allRules, P r.weight)
    (hscope : ∀ v ∈ scope, P v.weight) : ∀ r ∈ g.visibleRules nt scope, P r.weight := by
  intro r hr
  rcases mem_visibleRules.mp hr with hr | ⟨hr, -⟩
  · exact hrules r (mem_allRules_of_mem_rulesFor hr)
  · exact hscope r hr

theorem IsInstance.nonterminal_eq (h : g.IsInstance r t) : r.nonterminal = t.nonterminal :=
  congrArg Signature.nonterminal h.signature_eq

theorem IsInstance.name_eq (h : g.IsInstance r t) : r.name = t.name :=
  congrArg Signature.name h.signature_eq

theorem isVariableUse_iff_kind : t.isVariableUse = true ↔ t.kind = .variableUse := by
  unfold Tree.isVariableUse
  cases t.kind <;> simp

/-- A rule of the scope is the only one of its signature: no fixed rule has its name. -/
theorem withSignature_of_mem_scope {names : NameSupply} (hres : g.NoReservedNames)
    (hscope : scope.WellNamed names) (hr : r ∈ scope) :
    g.table.withSignature r.signature ++ scope.withSignature r.signature = [r] := by
  have hfixed : g.table.withSignature r.signature = [] := by
    rw [RuleTable.withSignature_eq, List.filter_eq_nil_iff]
    intro f hf heq
    obtain ⟨n, -, hn⟩ := hscope.issued r hr
    have hname : f.name = r.name := congrArg Signature.name (of_decide_eq_true heq)
    exact hres f (mem_allRules_of_mem_rulesFor hf) n (hname.trans hn)
  have hnodup : (scope.map Rule.signature).Nodup :=
    List.Nodup.of_map Signature.name (by simpa [Function.comp_def, Rule.signature] using hscope.nodup)
  rw [hfixed, Scope.withSignature, filter_eq_singleton hnodup hr, List.nil_append]

/-- A fixed rule is the only one of its signature: no variable has its name. -/
theorem withSignature_of_mem_rulesFor {names : NameSupply} (hdist : g.DistinctSignatures)
    (hres : g.NoReservedNames) (hscope : scope.WellNamed names) (hr : r ∈ g.table.rulesFor nt) :
    g.table.withSignature r.signature ++ scope.withSignature r.signature = [r] := by
  have hnt : r.signature.nonterminal = nt := g.table.nonterminal_eq nt r hr
  have hvars : scope.withSignature r.signature = [] := by
    rw [Scope.withSignature, List.filter_eq_nil_iff]
    intro v hv heq
    obtain ⟨n, -, hn⟩ := hscope.issued v hv
    have hname : v.name = r.name := congrArg Signature.name (of_decide_eq_true heq)
    exact hres r (mem_allRules_of_mem_rulesFor hr) n (hname.symm.trans hn)
  rw [hvars, RuleTable.withSignature_eq, hnt, filter_eq_singleton (hdist.nodup_rulesFor nt) hr,
    List.append_nil]

/-- The rule of which a node is an instance is found again. -/
theorem ruleForNode_eq_ok {names : NameSupply} (hdist : g.DistinctSignatures)
    (hres : g.NoReservedNames) (hscope : scope.WellNamed names)
    (hr : r ∈ g.visibleRules t.nonterminal scope) (hinst : g.IsInstance r t) :
    g.ruleForNode scope t = .ok r := by
  have hunique : g.table.withSignature t.signature ++ scope.withSignature t.signature = [r] := by
    rw [← hinst.signature_eq]
    rcases mem_visibleRules.mp hr with hr | ⟨hr, -⟩
    · exact withSignature_of_mem_rulesFor hdist hres hscope hr
    · exact withSignature_of_mem_scope hres hscope hr
  have hbound : (t.isVariableUse && !scope.binds t.name) = false := by
    by_cases huse : t.isVariableUse = true
    · have hrule := hinst.makes.isVariableUse_eq.mpr (isVariableUse_iff_kind.mp huse)
      rcases mem_visibleRules.mp hr with hr | ⟨hr, -⟩
      · simp [g.table.not_variableUse _ r hr] at hrule
      · have hbinds : scope.binds t.name = true :=
          List.any_eq_true.mpr ⟨r, hr, by simp [hinst.name_eq]⟩
        simp [hbinds]
    · simp [huse]
  simp [ruleForNode, hbound, hunique]

/-- A node has one rule. -/
theorem IsInstance.unique {names : NameSupply} {r' : Rule K} (hdist : g.DistinctSignatures)
    (hres : g.NoReservedNames) (hscope : scope.WellNamed names)
    (hr : r ∈ g.visibleRules t.nonterminal scope) (hinst : g.IsInstance r t)
    (hr' : r' ∈ g.visibleRules t.nonterminal scope) (hsig : r'.signature = t.signature) :
    r' = r := by
  have hmem : r' ∈ g.table.withSignature t.signature ++ scope.withSignature t.signature := by
    rw [RuleTable.withSignature_eq, Scope.withSignature, ← List.filter_append]
    rcases mem_visibleRules.mp hr' with h | ⟨h, -⟩
    · exact List.mem_filter.mpr ⟨List.mem_append_left _ h, by simpa using hsig⟩
    · exact List.mem_filter.mpr ⟨List.mem_append_right _ h, by simpa using hsig⟩
  rw [← hinst.signature_eq] at hmem
  rcases mem_visibleRules.mp hr with hr | ⟨hr, -⟩
  · rw [withSignature_of_mem_rulesFor hdist hres hscope hr] at hmem
    exact List.mem_singleton.mp hmem
  · rw [withSignature_of_mem_scope hres hscope hr] at hmem
    exact List.mem_singleton.mp hmem

section Terms

variable [Scalar K]

/-- Terms of one type: a constant, a function of one variable, and an application. -/
def terms : Grammar K where
  start := "T"
  table :=
    ((RuleTable.empty.insert ⟨"T", "c", none, 1, .plain⟩ rfl).insert
      ⟨"T", "fn", some ["T"], 1, .binder ⟨"T", none, "y", none⟩⟩ rfl).insert
      ⟨"T", "app", some ["T", "T"], 1, .plain⟩ rfl
  variableWeight := 1
  maxDepth := 4

theorem allRules_terms : (terms : Grammar K).table.allRules =
    [⟨"T", "c", none, 1, .plain⟩, ⟨"T", "fn", some ["T"], 1, .binder ⟨"T", none, "y", none⟩⟩,
      ⟨"T", "app", some ["T", "T"], 1, .plain⟩] := rfl

theorem rulesFor_terms : (terms : Grammar K).table.rulesFor "T" = terms.table.allRules := rfl

theorem distinctSignatures_terms : (terms : Grammar K).DistinctSignatures := by
  simp [DistinctSignatures, allRules_terms, Rule.signature]

theorem noReservedNames_terms : (terms : Grammar K).NoReservedNames := by
  intro r hr n heq
  have hchars := congrArg String.toList heq
  rw [allRules_terms] at hr
  simp only [List.mem_cons, List.not_mem_nil, or_false] at hr
  rcases hr with rfl | rfl | rfl <;> simp [NameSupply.nameOf] at hchars

end Terms

end Grammar

end ScopedGrammar
