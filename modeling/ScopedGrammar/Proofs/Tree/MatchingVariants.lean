import ScopedGrammar.Grammar.Packed
import ScopedGrammar.Proofs.Grammar.Renewal
import ScopedGrammar.Proofs.Tree.Binding
import ScopedGrammar.Proofs.Tree.Matching

/-!
# Matching and the names of variables

Trees count as equal up to the names of their bound variables, but a pattern is compared with a tree
name by name, those of variables included. So of two equal trees one may match a pattern that the
other does not match. It is a matter of the uses of variables at which the pattern was not cut:
there, and only there, the two trees have to agree. Trees that were made apart have no name in
common, and then one matches the other only if no variable is used at all. A pattern that does not
name any variable of the trees matches both or neither.
-/
namespace ScopedGrammar

namespace Tree

variable {K : Type} {M : Matching} {s t u m n r : Tree K} {q : Arg K} {p : Place}

/-- The trees have the same name wherever the first one uses a variable and the pattern was not cut.
-/
def NamesAgree (s t : Tree K) (q : Arg K) : Prop :=
  ∀ p m n r, s.get? p = some m → t.get? p = some n → q.asTree?.bind (·.get? p) = some r →
    m.isVariableUse = true → m.name = n.name

/-- Where the pattern has a node, what matches it has one that matches there. -/
theorem get?_of_matchesTree (h : t.matchesTree u = true) (hr : u.get? p = some r) :
    ∃ n, t.get? p = some n ∧ n.matchesTree r = true := by
  induction p generalizing t u with
  | nil =>
    obtain rfl : u = r := by simpa using hr
    exact ⟨t, get?_nil t, h⟩
  | cons i p ih =>
    obtain ⟨d, hd, hdr⟩ := get?_cons_eq_some.mp hr
    obtain ⟨-, -, -, hargs⟩ := matchesTree_iff.mp h
    have hi := forall₂_iff_getElem?.mp hargs i
    rw [child?_eq_some.mp hd] at hi
    obtain ⟨c, hc, hcd⟩ : ∃ c, t.child? i = some c ∧ c.matchesTree d = true := by
      cases ha : t.args[i]? with
      | none =>
        rw [ha] at hi
        cases hi
      | some a =>
        rw [ha] at hi
        cases hi with
        | some hmatch =>
          cases a with
          | subtree c => exact ⟨c, child?_eq_some.mpr ha, hmatch⟩
          | terminal x => exact hmatch.elim
    obtain ⟨n, hn, hmatch⟩ := ih hcd hdr
    exact ⟨n, get?_cons_eq_some.mpr ⟨c, hc, hn⟩, hmatch⟩

theorem name_eq_of_matchesRoot (h : t.matchesRoot q = true) (hn : t.get? p = some n)
    (hr : q.asTree?.bind (·.get? p) = some r) : n.name = r.name := by
  cases q with
  | terminal x => cases hr
  | subtree u =>
    obtain ⟨n', hn', hmatch⟩ := get?_of_matchesTree h hr
    obtain rfl : n = n' := Option.some.inj (hn.symm.trans hn')
    exact (matchesTree_iff.mp hmatch).2.1

theorem NamesAgree.symm (h : s.VariantOver M t) (hagree : NamesAgree s t q) : NamesAgree t s q := by
  intro p n m r hn hm hr huse
  exact (hagree p m n r hm hn hr ((h.at_both hm hn).isVariableUse_eq.trans huse)).symm

/-- A tree that agrees with another one in the names of variables matches what that matches. -/
theorem matchesRoot_of_namesAgree (h : s.VariantOver M t) (hagree : NamesAgree s t q)
    (hq : s.matchesRoot q = true) : t.matchesRoot q = true := by
  induction s using induction generalizing M t q with
  | node nt name kind args? ih =>
    cases q with
    | terminal x =>
      exact matchesRoot_terminal.mpr ((matchesRoot_terminal.mp hq).trans h.nonterminal_eq)
    | subtree u =>
      obtain ⟨hnt, hname, hsome, hargs⟩ := matchesTree_iff.mp hq
      refine matchesTree_iff.mpr ⟨h.nonterminal_eq.symm.trans hnt, ?_,
        h.head.isSome_eq.symm.trans hsome, ?_⟩
      · -- only the name of a variable may be another one
        cases huse : isVariableUse (.node nt name kind args?) with
        | false => exact (h.name_eq huse).symm.trans hname
        | true => exact (hagree [] _ t u rfl (get?_nil t) (get?_nil u) huse).symm.trans hname
      · refine forall₂_of_common h.args hargs fun i a b c ha hb hc hab hac => ?_
        cases hab with
        | terminal x => exact hac
        | @subtree v w hvw =>
          refine ih v (List.mem_of_getElem? ha) hvw (fun p m n r hm hn hr huse => ?_) hac
          cases c with
          | terminal x => cases hr
          | subtree c =>
            exact hagree (i :: p) m n r (get?_cons_eq_some.mpr ⟨v, child?_eq_some.mpr ha, hm⟩)
              (get?_cons_eq_some.mpr ⟨w, child?_eq_some.mpr hb, hn⟩)
              (get?_cons_eq_some.mpr ⟨c, child?_eq_some.mpr hc, hr⟩) huse

/-- Of two corresponding trees the one matches a pattern of the other exactly if they agree in the
names of the variables used where the pattern was not cut. -/
theorem matchesRoot_iff_namesAgree (h : s.VariantOver M t) (hq : s.matchesRoot q = true) :
    t.matchesRoot q = true ↔ NamesAgree s t q := by
  refine ⟨fun ht p m n r hm hn hr _ => ?_, fun hagree => matchesRoot_of_namesAgree h hagree hq⟩
  exact (name_eq_of_matchesRoot hq hm hr).trans (name_eq_of_matchesRoot ht hn hr).symm

theorem hasMatch_of_namesAgree (h : s.VariantOver M t)
    (hagree : ∀ p m n, s.get? p = some m → t.get? p = some n → m.matchesRoot q = true →
      NamesAgree m n q) (hq : s.hasMatch q = true) : t.hasMatch q = true := by
  obtain ⟨p, m, hm, hmatch⟩ := hasMatch_iff.mp hq
  obtain ⟨-, n, hn, hvar⟩ := h.at_place hm
  exact hasMatch_iff.mpr ⟨p, n, hn, matchesRoot_of_namesAgree hvar (hagree p m n hm hn hmatch) hmatch⟩

theorem NamesAgree.at_place (h : NamesAgree s t (.subtree t)) (hm : s.get? p = some m)
    (hn : t.get? p = some n) (q : Arg K) : NamesAgree m n q := by
  intro p' m' n' r hm' hn' _ huse
  have ht : t.get? (p ++ p') = some n' := get?_trans hn hn'
  exact h (p ++ p') m' n' n' (get?_trans hm hm') ht ht huse

/-- Trees that agree in all names of variables match the same patterns. -/
theorem matches_eq_of_namesAgree (h : s.VariantOver M t) (hagree : NamesAgree s t (.subtree t))
    (q : Arg K) : s.matchesRoot q = t.matchesRoot q ∧ s.hasMatch q = t.hasMatch q := by
  have hback : ∀ {p m n}, s.get? p = some m → t.get? p = some n → NamesAgree n m q := by
    intro p m n hm hn
    exact (hagree.at_place hm hn q).symm (h.at_both hm hn)
  constructor
  · exact Bool.eq_iff_iff.mpr
      ⟨matchesRoot_of_namesAgree h (hagree.at_place (get?_nil s) (get?_nil t) q),
        matchesRoot_of_namesAgree h.symm (hback (get?_nil s) (get?_nil t))⟩
  · exact Bool.eq_iff_iff.mpr
      ⟨hasMatch_of_namesAgree h fun p m n hm hn _ => hagree.at_place hm hn q,
        hasMatch_of_namesAgree h.symm fun p n m hn hm _ => hback hm hn⟩

/-- What matches a pattern without names of its variables uses no variable where that was not cut.
-/
theorem namesAgree_of_foreign {g : Grammar K} {names : NameSupply} (hs : g.Derived names [] s)
    (hq : ∀ p r, q.asTree?.bind (·.get? p) = some r → r.name ∉ s.introducedNames)
    (hm : s.get? p = some m) (hmatch : m.matchesRoot q = true) (n : Tree K) : NamesAgree m n q := by
  intro p' m' n' r hm' _ hr huse
  have hname := name_eq_of_matchesRoot hmatch hm' hr
  exact absurd (hname ▸ hs.mem_introducedNames_of_use (get?_trans hm hm') huse) (hq p' r hr)

/-- A pattern that names no variable of two corresponding trees is matched by both or neither. -/
theorem matches_eq_of_foreign {g : Grammar K} {names names' : NameSupply}
    (hs : g.Derived names [] s) (ht : g.Derived names' [] t) (h : s.VariantOver M t)
    (hq : ∀ p r, q.asTree?.bind (·.get? p) = some r →
      r.name ∉ s.introducedNames ∧ r.name ∉ t.introducedNames) :
    s.matchesRoot q = t.matchesRoot q ∧ s.hasMatch q = t.hasMatch q := by
  have hs' : ∀ {p m} n, s.get? p = some m → m.matchesRoot q = true → NamesAgree m n q :=
    fun n hm hmatch => namesAgree_of_foreign hs (fun p r hr => (hq p r hr).1) hm hmatch n
  have ht' : ∀ {p m} n, t.get? p = some m → m.matchesRoot q = true → NamesAgree m n q :=
    fun n hm hmatch => namesAgree_of_foreign ht (fun p r hr => (hq p r hr).2) hm hmatch n
  constructor
  · exact Bool.eq_iff_iff.mpr
      ⟨fun hmatch => matchesRoot_of_namesAgree h (hs' t (get?_nil s) hmatch) hmatch,
        fun hmatch => matchesRoot_of_namesAgree h.symm (ht' s (get?_nil t) hmatch) hmatch⟩
  · exact Bool.eq_iff_iff.mpr
      ⟨hasMatch_of_namesAgree h fun p m n hm _ hmatch => hs' n hm hmatch,
        hasMatch_of_namesAgree h.symm fun p n m hn _ hmatch => ht' m hn hmatch⟩

/-- Trees with no name in common agree in the names of variables only if none is used. -/
theorem namesAgree_iff_of_disjoint {g : Grammar K} {names names' : NameSupply}
    (hs : g.Derived names [] s) (ht : g.Derived names' [] t) (h : s.VariantOver M t)
    (hdisjoint : s.introducedNames.Disjoint t.introducedNames) :
    NamesAgree s t (.subtree t) ↔ ∀ p m, s.get? p = some m → m.isVariableUse = false := by
  constructor
  · intro hagree p m hm
    rw [← Bool.not_eq_true]
    intro huse
    obtain ⟨-, n, hn, hvar⟩ := h.at_place hm
    have hname := hagree p m n n hm hn hn huse
    refine hdisjoint (hs.mem_introducedNames_of_use hm huse) (hname ▸ ?_)
    exact ht.mem_introducedNames_of_use hn (hvar.isVariableUse_eq ▸ huse)
  · intro hnone p m n r hm _ _ huse
    simp [hnone p m hm] at huse

/-- Trees that count as equal and the patterns they match. If the one matches a pattern, the other
one does exactly if the two have the same names of variables where that was not cut. So the one
matches the other exactly if they have all names of variables in common, and then they match the
same patterns; made apart, they match each other only if no variable is used. A pattern that names
no variable of either is matched by both or neither. -/
theorem matching_of_alike {g : Grammar K} {names names' : NameSupply} (hdist : g.DistinctSignatures)
    (hplain : g.PlainNames) (hs : g.Derivable names s) (ht : g.Derivable names' t)
    (halike : s.alike t = true) :
    (∀ q, s.matchesRoot q = true → (t.matchesRoot q = true ↔ NamesAgree s t q)) ∧
      (s.matchesRoot (.subtree t) = true ↔ NamesAgree s t (.subtree t)) ∧
      (NamesAgree s t (.subtree t) →
        ∀ q, s.matchesRoot q = t.matchesRoot q ∧ s.hasMatch q = t.hasMatch q) ∧
      (s.introducedNames.Disjoint t.introducedNames → (s.matchesRoot (.subtree t) = true ↔
        ∀ p m, s.get? p = some m → m.isVariableUse = false)) ∧
      ∀ q, (∀ p r, q.asTree?.bind (·.get? p) = some r →
          r.name ∉ s.introducedNames ∧ r.name ∉ t.introducedNames) →
        s.matchesRoot q = t.matchesRoot q ∧ s.hasMatch q = t.hasMatch q := by
  have hvar : s.VariantOver Eq t := (alike_iff hdist hplain hs ht).mp halike
  have hself : s.matchesRoot (.subtree t) = true ↔ NamesAgree s t (.subtree t) :=
    (matchesRoot_iff_namesAgree hvar.symm (q := .subtree t) (matchesTree_self t)).trans
      ⟨fun h => h.symm hvar.symm, fun h => h.symm hvar⟩
  refine ⟨fun q => matchesRoot_iff_namesAgree hvar, hself, matches_eq_of_namesAgree hvar,
    fun hdisjoint => ?_, fun q => matches_eq_of_foreign hs.toDerived ht.toDerived hvar⟩
  exact hself.trans (namesAgree_iff_of_disjoint hs.toDerived ht.toDerived hvar hdisjoint)

/-- The identity is read twice from one text. The two trees count as equal and match a function of
any body, but their bodies use variables of different names, so neither matches the other. -/
theorem matching_of_alike_identityTerm :
    let g : Grammar Float := Grammar.terms
    let s : Tree Float := Grammar.identityTerm
    let t : Tree Float := (s.uniquify ⟨1⟩).1
    let function : Arg Float := .subtree (.node "T" "fn" .plain (some [.terminal "T"]))
    (g.DistinctSignatures ∧ g.PlainNames ∧ g.Derivable ⟨1⟩ s ∧ g.Derivable ⟨2⟩ t ∧
        s.alike t = true) ∧
      (∀ p r, function.asTree?.bind (·.get? p) = some r →
        r.name ∉ s.introducedNames ∧ r.name ∉ t.introducedNames) ∧
      (s.matchesRoot function = true ∧ t.matchesRoot function = true) ∧
      s.introducedNames.Disjoint t.introducedNames ∧ s.matchesRoot (.subtree t) = false := by
  intro g s t function
  have hs : g.Derivable ⟨1⟩ s := Grammar.derivable_identityTerm
  obtain ⟨hcopy, hvar, -, -⟩ := hs.toDerived.uniquify (Nat.le_refl 1)
  have ht : g.Derivable ⟨2⟩ t := ⟨hcopy, hvar.nonemptyTerminals hs.terminals⟩
  have halike : s.alike t = true := by decide
  obtain ⟨-, -, -, hapart, hforeign⟩ := matching_of_alike Grammar.distinctSignatures_terms
    Grammar.plainNames_terms hs ht halike
  have hdisjoint : s.introducedNames.Disjoint t.introducedNames := by
    rw [List.disjoint_left]
    decide
  have hnames : ∀ p r, function.asTree?.bind (·.get? p) = some r →
      r.name ∉ s.introducedNames ∧ r.name ∉ t.introducedNames := by
    intro p r hr
    cases p with
    | nil =>
      obtain rfl := Option.some.inj hr
      decide
    | cons i p =>
      cases i <;> cases hr
  have hmatch : s.matchesRoot function = true := by decide
  refine ⟨⟨Grammar.distinctSignatures_terms, Grammar.plainNames_terms, hs, ht, halike⟩, hnames,
    ⟨hmatch, (hforeign function hnames).1 ▸ hmatch⟩, hdisjoint, ?_⟩
  rw [← Bool.not_eq_true, hapart hdisjoint]
  intro hnone
  cases hnone [0] _ rfl

/-- Two trees read from the same text one after the other count as equal, but neither the one nor
any part of it matches the other as a pattern, which that does itself. -/
theorem not_matches_alike_identityTerm : ∃ s t : Tree Float,
    Grammar.terms.unpackFrom "T" "13" .initial = (.ok s, ⟨1⟩) ∧
      Grammar.terms.unpackFrom "T" "13" ⟨1⟩ = (.ok t, ⟨2⟩) ∧ s.alike t = true ∧
      s.matchesRoot (.subtree t) = false ∧ t.matchesRoot (.subtree t) = true ∧
      s.hasMatch (.subtree t) = false ∧ t.hasMatch (.subtree t) = true :=
  ⟨Grammar.identityTerm, (Grammar.identityTerm.uniquify ⟨1⟩).1, rfl, rfl, by decide, by decide,
    by decide, by decide, by decide⟩

end Tree

end ScopedGrammar
