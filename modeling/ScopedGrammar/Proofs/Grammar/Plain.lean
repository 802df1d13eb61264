import ScopedGrammar.Proofs.Grammar.Generated
import ScopedGrammar.Proofs.Tree.ReadBack

/-!
# Grammars of plain names

A grammar of plain names has trees whose canonical texts can be read back, so trees are alike
exactly if they are variants of each other. A terminal is never empty in a complete tree; of other
trees this has to be said, since a nonterminal that was not expanded may have an empty name.
-/
namespace ScopedGrammar

variable {K : Type}

/-- No terminal of the tree is empty. -/
inductive Tree.NonemptyTerminals : Tree K → Prop
  | node {t : Tree K} (terminals : ∀ s, .terminal s ∈ t.args → s ≠ "")
      (args : ∀ c, .subtree c ∈ t.args → c.NonemptyTerminals) : t.NonemptyTerminals

namespace Grammar

/-- Symbols are plain, and those that stand for themselves are not empty. -/
def PlainSymbols (g : Grammar K) (symbols : List String) : Prop :=
  ∀ s ∈ symbols, PlainName s ∧ (g.isNonterminal s = false → s ≠ "")

/-- The names of a grammar are plain: those of its rules and nonterminals, its terminals and the
stems of its variables. -/
structure PlainNames (g : Grammar K) : Prop where
  rules : ∀ r ∈ g.table.allRules,
    PlainName r.nonterminal ∧ PlainName r.name ∧ g.PlainSymbols r.symbols
  bound : ∀ r ∈ g.table.allRules, ∀ spec, r.kind = .binder spec →
    PlainName spec.boundType ∧ PlainName spec.stem ∧ g.PlainSymbols (spec.boundArgs.getD [])

/-- What is printed of a variable, other than its name, is plain. -/
structure PlainVariable (g : Grammar K) (v : Rule K) : Prop where
  nonterminal : PlainName v.nonterminal
  stem : PlainName v.stem
  symbols : g.PlainSymbols v.symbols

variable {g : Grammar K} {names names' : NameSupply} {S T : Scope K} {s t n : Tree K}

theorem PlainNames.noReservedNames (h : g.PlainNames) : g.NoReservedNames :=
  fun r hr n => nameOf_ne_of_plain (h.rules r hr).2.1 n

theorem PlainNames.introduced (h : g.PlainNames) {r v : Rule K} {nt : String} {kind : NodeKind K}
    (hr : r ∈ g.visibleRules nt S) (hS : ∀ v ∈ S, v.isVariableUse = true)
    (hmakes : g.Makes r kind) (hv : kind.introduced? = some v) : g.PlainVariable v := by
  obtain ⟨hr, spec, hspec, heq⟩ := hmakes.exists_binder hr hS hv
  obtain ⟨htype, hstem, hargs⟩ := h.bound r hr spec hspec
  rw [heq]
  exact ⟨htype, hstem, hargs⟩

theorem IsInstance.symbols_eq {r : Rule K} (h : g.IsInstance r t) :
    t.args.map Arg.symbol = r.symbols := by
  have hexp : r.expansion = t.args?.map (·.map Arg.symbol) :=
    congrArg Signature.expansion h.signature_eq
  rw [Rule.symbols, hexp, Tree.args]
  cases t.args? <;> rfl

theorem Derived.plainVariables_below (h : g.PlainNames) (ht : g.Derived names S t)
    (hS : ∀ v ∈ S, g.PlainVariable v) : ∀ v ∈ S.below t.kind, g.PlainVariable v := by
  obtain ⟨⟨r, hr, hinst⟩, -⟩ := derives_iff.mp ht.derives
  intro v hv
  rw [Scope.below_eq, List.mem_append, Option.mem_toList] at hv
  rcases hv with hv | hv
  · exact hS v hv
  · exact h.introduced hr ht.wellNamed.isVariableUse hinst.makes hv

/-- The root of a derived tree has plain names. -/
theorem Derived.plain_root (h : g.PlainNames) (ht : g.Derived names S t)
    (hS : ∀ v ∈ S, g.PlainVariable v) : PlainName t.nonterminal ∧
      (t.kind ≠ .variableUse → PlainName t.name) ∧
        (∀ v, t.kind.introduced? = some v → PlainName v.stem) ∧
          g.PlainSymbols (t.args.map Arg.symbol) := by
  obtain ⟨⟨r, hr, hinst⟩, -⟩ := derives_iff.mp ht.derives
  have hstem := fun v hv =>
    (h.introduced hr ht.wellNamed.isVariableUse hinst.makes (v := v) hv).stem
  rw [hinst.symbols_eq, ← hinst.nonterminal_eq, ← hinst.name_eq]
  rcases mem_visibleRules.mp hr with hr | ⟨hr, -⟩
  · obtain ⟨hnt, hname, hsymbols⟩ := h.rules r (mem_allRules_of_mem_rulesFor hr)
    exact ⟨hnt, fun _ => hname, hstem, hsymbols⟩
  · have huse := hinst.makes.isVariableUse_eq.mp (ht.wellNamed.isVariableUse r hr)
    have hv := hS r hr
    exact ⟨hv.nonterminal, fun hne => absurd huse hne, hstem, hv.symbols⟩

theorem Derived.plainNames (h : g.PlainNames) (ht : g.Derived names S t)
    (hS : ∀ v ∈ S, g.PlainVariable v) (hne : t.NonemptyTerminals) : t.PlainNames := by
  induction t using Tree.induction generalizing S with
  | node nt name kind args? ih =>
    obtain ⟨hnt, hname, hstem, hsymbols⟩ := ht.plain_root h hS
    obtain ⟨hterm, hargs⟩ := hne
    refine .node hnt hname hstem (fun s hs => ⟨?_, hterm s hs⟩) fun c hc => ?_
    · exact (hsymbols s (List.mem_map.mpr ⟨_, hs, rfl⟩)).1
    · exact ih c hc (ht.child hc) (ht.plainVariables_below h hS) (hargs c hc)

/-- A complete tree has no empty terminal. -/
theorem Derived.nonemptyTerminals (h : g.PlainNames) (ht : g.Derived names S t)
    (hS : ∀ v ∈ S, g.PlainVariable v) (hcomplete : g.Complete t) : t.NonemptyTerminals := by
  induction t using Tree.induction generalizing S with
  | node nt name kind args? ih =>
    obtain ⟨-, -, -, hsymbols⟩ := ht.plain_root h hS
    obtain ⟨hfilled, hargs⟩ := hcomplete
    refine .node (fun s hs => ?_) fun c hc => ?_
    · exact (hsymbols s (List.mem_map.mpr ⟨_, hs, rfl⟩)).2 (hfilled _ hs).symm
    · exact ih c hc (ht.child hc) (ht.plainVariables_below h hS) (hargs c hc)

theorem Derived.plainVariables_above (h : g.PlainNames) (ht : g.Derived names S t)
    (hS : ∀ v ∈ S, g.PlainVariable v) {p : Place} (hn : t.get? p = some n) :
    ∀ v ∈ S ++ t.variablesAbove p, g.PlainVariable v := by
  induction p generalizing S t with
  | nil => simpa using hS
  | cons i p ih =>
    obtain ⟨c, hc, hcn⟩ := Tree.get?_cons_eq_some.mp hn
    have hbelow := ih (ht.child (Tree.mem_args_of_child? hc))
      (ht.plainVariables_below h hS) hcn
    rwa [Scope.below_kind, List.append_assoc, ← Tree.variablesAbove_cons hc] at hbelow

/-- A closed tree of a grammar with plain names that is not cut short by an empty terminal. A
nonterminal may have been left as a terminal in it, as it may not in a tree that is `Generable`. -/
structure Derivable (g : Grammar K) (names : NameSupply) (t : Tree K) : Prop
    extends g.Derived names [] t where
  terminals : t.NonemptyTerminals

/-- The subtree at a place is derived in the scope of the place. -/
theorem Derivable.derived_at (ht : g.Derivable names t) {p : Place} (hn : t.get? p = some n) :
    g.Derived names (t.variablesAbove p) n :=
  ht.toDerived.at_place hn

theorem Derivable.plainNames (ht : g.Derivable names t) (h : g.PlainNames) : t.PlainNames :=
  ht.toDerived.plainNames h (by simp) ht.terminals

theorem Generable.derivable (h : g.Generable names [] t) (hplain : g.PlainNames) :
    g.Derivable names t :=
  ⟨h.toDerived, h.nonemptyTerminals hplain (by simp) h.complete⟩

section Terms

variable [Scalar K]

theorem plainNames_terms : (terms : Grammar K).PlainNames := by
  have hplain : ∀ x ∈ ["T", "c", "fn", "app", "y"], PlainName x := by
    simp [PlainName, PlainChar, separators]
  have hsymbols : ∀ symbols : List String, (∀ x ∈ symbols, x = "T") →
      (terms : Grammar K).PlainSymbols symbols := by
    intro symbols h x hx
    obtain rfl := h x hx
    exact ⟨hplain "T" (by simp), fun _ => by simp⟩
  refine ⟨fun r hr => ?_, fun r hr spec hspec => ?_⟩
  · rw [allRules_terms] at hr
    simp only [List.mem_cons, List.not_mem_nil, or_false] at hr
    rcases hr with rfl | rfl | rfl <;>
      exact ⟨hplain _ (by simp), hplain _ (by simp), hsymbols _ (by simp [Rule.symbols])⟩
  · rw [allRules_terms] at hr
    simp only [List.mem_cons, List.not_mem_nil, or_false] at hr
    rcases hr with rfl | rfl | rfl <;> cases hspec
    exact ⟨hplain _ (by simp), hplain _ (by simp), hsymbols _ (by simp)⟩

theorem derivable_identityTerm : (terms : Grammar K).Derivable ⟨1⟩ identityTerm := by
  refine ⟨derived_identityTerm, .node (by simp [identityTerm]) fun c hc => ?_⟩
  obtain rfl : c = .node "T" (NameSupply.nameOf 0) .variableUse none := by
    simpa [identityTerm] using hc
  exact .node (by simp) (by simp)

end Terms

end Grammar

namespace Tree

theorem PlainNames.at_place {t n : Tree K} {p : Place} (h : t.PlainNames)
    (hn : t.get? p = some n) : n.PlainNames := by
  induction p generalizing t with
  | nil =>
    obtain rfl : t = n := by simpa using hn
    exact h
  | cons i p ih =>
    obtain ⟨c, hc, hcn⟩ := get?_cons_eq_some.mp hn
    obtain ⟨-, -, -, -, hargs⟩ := h
    exact ih (hargs c (mem_args_of_child? hc)) hcn

theorem shows_nil : Renaming.Shows [] 0 ([] : Scope K) := ⟨by simp, by simp⟩

/-- Trees count as equal exactly if they are variants of each other. -/
theorem alike_iff {g : Grammar K} {names names' : NameSupply} {s t : Tree K}
    (hdist : g.DistinctSignatures) (hplain : g.PlainNames) (hs : g.Derivable names s)
    (ht : g.Derivable names' t) : s.alike t = true ↔ s.Variant t := by
  rw [alike, beq_iff_eq]
  constructor
  · intro h
    have hends : Begins Stop ([] : List Char) := by simp [Begins]
    refine (variantOver_of_text hdist hs.toDerived ht.toDerived (hs.plainNames hplain)
      (ht.plainNames hplain) shows_nil shows_nil hends hends ?_).1
    rw [List.append_nil, List.append_nil]
    exact congrArg String.toList h
  · intro h
    exact canonical_eq_of_variant hs.fresh.nodup ht.fresh.nodup h

end Tree

end ScopedGrammar
