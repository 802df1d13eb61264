import ScopedGrammar.Proofs.Grammar.Plain
import ScopedGrammar.Proofs.Tree.Agreement

/-!
# Edits keep trees derived

A derived tree may be moved to another scope that holds the variables which it uses, and a subtree
may be exchanged for another one that is derived in the same scope and expands the same
nonterminal. The names stay distinct if those of the new subtree were taken over from the old one
or not issued before.
-/
namespace ScopedGrammar

variable {K : Type}

theorem Rows.mem_nonterminals_of_mem_rulesFor {rows : Rows K} {r : Rule K} {nt : String}
    (h : r ∈ rows.rulesFor nt) : nt ∈ rows.nonterminals := by
  induction rows with
  | nil => simp [rulesFor] at h
  | cons row rows ih =>
    rw [rulesFor] at h
    rw [nonterminals, List.map_cons, List.mem_cons]
    split_ifs at h with heq
    · exact .inl heq.symm
    · exact .inr (ih h)

namespace Grammar

variable {g : Grammar K} {names names' : NameSupply} {S T : Scope K} {s t t' c m r : Tree K}
  {p : Place}

/-- A tree is derived in every scope that holds the variables which it uses. -/
theorem Derived.derives_of_uses (h : g.Derived names S t)
    (huses : ∀ v ∈ S, v.name ∈ t.freeUses [] → v ∈ T) : g.Derives T t := by
  induction t using Tree.induction generalizing S T with
  | node nt name kind args? ih =>
    obtain ⟨⟨q, hq, hinst⟩, -⟩ := derives_iff.mp h.derives
    refine .node q ?_ hinst fun c hc => ih c hc (h.child hc) fun v hv hfree => ?_
    · rcases mem_visibleRules.mp hq with hq | ⟨hq, hnt⟩
      · exact mem_visibleRules.mpr (.inl hq)
      · have hkind := hinst.makes.isVariableUse_eq.mp (h.wellNamed.isVariableUse q hq)
        have hfree := Tree.mem_freeUses_iff.mpr (.inl ⟨hkind, hinst.name_eq⟩)
        exact mem_visibleRules.mpr (.inr ⟨huses q hq hfree, hnt⟩)
    · rw [Scope.below_eq, List.mem_append] at hv ⊢
      rcases hv with hv | hv
      · refine .inl (huses v hv (Tree.mem_freeUses_iff.mpr (.inr ⟨fun w hw heq => ?_, c, hc, hfree⟩)))
        have hmem := Tree.mem_introducedNames_of_introduced? (t := .node nt name kind args?)
          (by simpa using hw)
        exact h.fresh.disjoint _ hmem (heq ▸ List.mem_map_of_mem hv)
      · exact .inr hv

/-- A derived tree may be moved to another scope that holds the variables which it uses and none of
its own. -/
theorem Derived.rescope (h : g.Derived names S t) (hle : names.issued ≤ names'.issued)
    (hT : T.WellNamed names') (huses : ∀ v ∈ S, v.name ∈ t.freeUses [] → v ∈ T)
    (hdisjoint : ∀ x ∈ t.introducedNames, x ∉ T.map (·.name)) : g.Derived names' T t :=
  ⟨h.derives_of_uses huses,
    ⟨h.fresh.nodup, fun x hx => (h.fresh.issued x hx).mono hle, hdisjoint⟩, hT⟩

/-- An exchanged subtree of the same nonterminal does not change the rule of the node above. -/
theorem signature_withArgs_set {i : ℕ} {c c' : Tree K} (hc : t.child? i = some c)
    (hnt : c'.nonterminal = c.nonterminal) :
    (t.withArgs (t.args.set i (.subtree c'))).signature = t.signature := by
  have hi := Tree.child?_eq_some.mp hc
  have hsymbols := Tree.map_symbol_set hc hnt
  obtain ⟨nt, name, kind, args?⟩ := t
  cases args? with
  | none => simp at hi
  | some as => exact congrArg (fun e => Signature.mk nt name (some e)) hsymbols

/-- Exchanging a subtree for one that is derived in the same scope keeps a tree derived. -/
theorem Derives.replace? (h : g.Derives S t) (hm : t.get? p = some m)
    (hr : g.Derives (S ++ t.variablesAbove p) r) (hnt : r.nonterminal = m.nonterminal)
    (ht' : t.replace? p r = some t') : g.Derives S t' := by
  induction p generalizing S t t' with
  | nil =>
    obtain rfl : r = t' := by simpa using ht'
    simpa using hr
  | cons i p ih =>
    obtain ⟨c, hc, hcm⟩ := Tree.get?_cons_eq_some.mp hm
    rw [Tree.replace?_cons, hc, Option.bind_some] at ht'
    obtain ⟨c', hc', rfl⟩ := Option.map_eq_some_iff.mp ht'
    rw [Tree.variablesAbove_cons hc, ← List.append_assoc, ← Scope.below_kind] at hr
    obtain ⟨⟨q, hq, hinst⟩, hargs⟩ := derives_iff.mp h
    have hmem := Tree.mem_args_of_child? hc
    have hchild := ih (hargs c hmem) hcm hr hc'
    have hsig := signature_withArgs_set hc (Tree.nonterminal_replace? hcm hnt hc')
    obtain ⟨has, hkind, -, hroot, -⟩ :=
      Tree.withArgs_of_child? hc (t.args.set i (.subtree c'))
    refine .node q ?_ ⟨hinst.signature_eq.trans hsig.symm, ?_⟩ fun d hd => ?_
    · rwa [hroot]
    · rw [hkind]
      exact hinst.makes
    · rw [has] at hd
      rw [hkind]
      rcases List.mem_or_eq_of_mem_set hd with hd | hd
      · exact hargs d hd
      · cases hd
        exact hchild

/-- Exchanging a subtree keeps all names distinct if those of the new subtree are old ones or were
not issued before. -/
theorem Derived.replace? (h : g.Derived names S t) (hle : names.issued ≤ names'.issued)
    (hm : t.get? p = some m) (hr : g.Derived names' (S ++ t.variablesAbove p) r)
    (hnt : r.nonterminal = m.nonterminal)
    (hnew : ∀ x ∈ r.introducedNames, x ∈ m.introducedNames ∨ ¬ names.Issued x)
    (ht' : t.replace? p r = some t') : g.Derived names' S t' := by
  obtain ⟨pre, post, hold, hnames⟩ := Tree.introducedNames_replace? hm ht'
  have hin : ∀ x ∈ pre ++ post, x ∈ t.introducedNames := by
    intro x hx
    rw [hold]
    rcases List.mem_append.mp hx with hx | hx
    · simp [hx]
    · simp [hx]
  refine ⟨h.derives.replace? hm hr.derives hnt ht', ⟨?_, ?_, ?_⟩, h.wellNamed.mono hle⟩
  · refine Tree.nodup_introducedNames_replace? h.fresh.nodup hr.fresh.nodup hm (fun x hx => ?_) ht'
    exact (hnew x hx).imp_right fun hx hmem => hx (h.fresh.issued x hmem)
  · intro x hx
    rw [hnames, List.append_assoc, List.mem_append, List.mem_append] at hx
    rcases hx with hx | hx | hx
    · exact (h.fresh.issued x (hin x (List.mem_append_left _ hx))).mono hle
    · exact hr.fresh.issued x hx
    · exact (h.fresh.issued x (hin x (List.mem_append_right _ hx))).mono hle
  · intro x hx
    rw [hnames, List.append_assoc, List.mem_append, List.mem_append] at hx
    rcases hx with hx | hx | hx
    · exact h.fresh.disjoint x (hin x (List.mem_append_left _ hx))
    · have hdisjoint := hr.fresh.disjoint x hx
      rw [List.map_append, List.mem_append, not_or] at hdisjoint
      exact hdisjoint.1
    · exact h.fresh.disjoint x (hin x (List.mem_append_right _ hx))

/-- Exchanging a subtree for a complete one of the same nonterminal keeps a tree complete. -/
theorem Complete.replace? (h : g.Complete t) (hm : t.get? p = some m) (hr : g.Complete r)
    (hnt : r.nonterminal = m.nonterminal) (ht' : t.replace? p r = some t') : g.Complete t' := by
  induction p generalizing t t' with
  | nil =>
    obtain rfl : r = t' := by simpa using ht'
    exact hr
  | cons i p ih =>
    obtain ⟨c, hc, hcm⟩ := Tree.get?_cons_eq_some.mp hm
    rw [Tree.replace?_cons, hc, Option.bind_some] at ht'
    obtain ⟨c', hc', rfl⟩ := Option.map_eq_some_iff.mp ht'
    obtain ⟨hfilled, hargs⟩ := h
    have hmem := Tree.mem_args_of_child? hc
    have hchild := ih (hargs c hmem) hcm hc'
    have has := (Tree.withArgs_of_child? hc (t.args.set i (.subtree c'))).1
    refine .node (fun a ha => ?_) fun d hd => ?_
    · rw [has] at ha
      rcases List.mem_or_eq_of_mem_set ha with ha | rfl
      · exact hfilled a ha
      · have hsymbol : c'.nonterminal = c.nonterminal := Tree.nonterminal_replace? hcm hnt hc'
        have hfill := hfilled _ hmem
        rw [Arg.symbol, ← hsymbol] at hfill
        exact hfill
    · rw [has] at hd
      rcases List.mem_or_eq_of_mem_set hd with hd | hd
      · exact hargs d hd
      · cases hd
        exact hchild

theorem isNonterminal_of_mem_rulesFor {q : Rule K} {nt : String} (h : q ∈ g.table.rulesFor nt) :
    g.isNonterminal nt = true :=
  List.contains_iff_mem.mpr (Rows.mem_nonterminals_of_mem_rulesFor h)

/-- What stands at a place of a closed complete tree expands a nonterminal. -/
theorem Derived.isNonterminal_at (h : g.Derived names [] t) (hcomplete : g.Complete t)
    (hm : t.get? p = some m) : g.isNonterminal m.nonterminal = true := by
  rcases List.eq_nil_or_concat p with rfl | ⟨p, i, rfl⟩
  · obtain rfl : t = m := by simpa using hm
    obtain ⟨⟨q, hq, -⟩, -⟩ := derives_iff.mp h.derives
    exact isNonterminal_of_mem_rulesFor ((mem_visibleRules.mp hq).resolve_right (by simp))
  · rw [List.concat_eq_append, Tree.get?_append] at hm
    obtain ⟨n, hn, hnm⟩ := Option.bind_eq_some_iff.mp hm
    obtain ⟨hfilled, -⟩ := hcomplete.at_place hn
    have hchild : n.child? i = some m := by simpa using hnm
    exact (hfilled _ (Tree.mem_args_of_child? hchild)).symm

end Grammar

/-- Exchanging a subtree adds no empty terminal if the new subtree has none. -/
theorem Tree.NonemptyTerminals.replace? {t t' r : Tree K} {p : Place} (h : t.NonemptyTerminals)
    (hr : r.NonemptyTerminals) (ht' : t.replace? p r = some t') : t'.NonemptyTerminals := by
  induction p generalizing t t' with
  | nil =>
    obtain rfl : r = t' := by simpa using ht'
    exact hr
  | cons i p ih =>
    obtain ⟨c, hc, hrep⟩ := Option.bind_eq_some_iff.mp (Tree.replace?_cons t r i p ▸ ht')
    obtain ⟨c', hc', rfl⟩ := Option.map_eq_some_iff.mp hrep
    obtain ⟨hterm, hargs⟩ := h
    have hchild := ih (hargs c (Tree.mem_args_of_child? hc)) hc'
    have has := (Tree.withArgs_of_child? hc (t.args.set i (.subtree c'))).1
    refine .node (fun x hx => ?_) fun d hd => ?_
    · rw [has] at hx
      rcases List.mem_or_eq_of_mem_set hx with hx | hx
      · exact hterm x hx
      · cases hx
    · rw [has] at hd
      rcases List.mem_or_eq_of_mem_set hd with hd | hd
      · exact hargs d hd
      · cases hd
        exact hchild

theorem Tree.NonemptyTerminals.at_place {t n : Tree K} {p : Place} (h : t.NonemptyTerminals)
    (hn : t.get? p = some n) : n.NonemptyTerminals := by
  induction p generalizing t with
  | nil =>
    obtain rfl : t = n := by simpa using hn
    exact h
  | cons i p ih =>
    obtain ⟨c, hc, hcn⟩ := Tree.get?_cons_eq_some.mp hn
    obtain ⟨-, hargs⟩ := h
    exact ih (hargs c (Tree.mem_args_of_child? hc)) hcn

end ScopedGrammar
