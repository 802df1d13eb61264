import ScopedGrammar.Proofs.Grammar.Origins
import ScopedGrammar.Proofs.Text.NameOrder
import ScopedGrammar.Proofs.Tree.Binding

/-!
# Canonical order and the names of variables

The arguments of a symmetric node are in canonical order if no label is above the one after it. The
label of a variable is its issued name, which two equal trees need not have in common. Against a
plain label every issued name stands on the same side, and of two names of one length the outer
variable's is the smaller, so there the order is a matter of the tree alone. Names of different
lengths are ordered by their first digits, and then it is not.
-/
namespace ScopedGrammar

variable {K : Type}

/-- The names of a scope have ascending numbers. -/
def Scope.Ascending (S : Scope K) : Prop :=
  ∃ ns : List ℕ, ns.Pairwise (· < ·) ∧ S.map (·.name) = ns.map NameSupply.nameOf

namespace Scope.Ascending

variable {S : Scope K} {v w : Rule K} {i j : ℕ}

theorem exists_nameOf (h : S.Ascending) (hv : v ∈ S) : ∃ k, v.name = NameSupply.nameOf k := by
  obtain ⟨ns, -, heq⟩ := h
  have hmem : v.name ∈ ns.map NameSupply.nameOf := heq ▸ List.mem_map_of_mem hv
  obtain ⟨k, -, hk⟩ := List.mem_map.mp hmem
  exact ⟨k, hk.symm⟩

/-- Of two names of one length that of the outer variable is the smaller. -/
theorem name_lt_name_iff (h : S.Ascending) (hv : S[i]? = some v) (hw : S[j]? = some w)
    (hlen : v.name.length = w.name.length) : v.name < w.name ↔ i < j := by
  obtain ⟨ns, hns, heq⟩ := h
  have hget : ∀ {i : ℕ} {v : Rule K}, S[i]? = some v →
      ∃ k, ns[i]? = some k ∧ v.name = NameSupply.nameOf k := by
    intro i v hv
    have hi : (ns.map NameSupply.nameOf)[i]? = some v.name := by simp [← heq, hv]
    rw [List.getElem?_map, Option.map_eq_some_iff] at hi
    obtain ⟨k, hk, hname⟩ := hi
    exact ⟨k, hk, hname.symm⟩
  obtain ⟨k, hk, hvk⟩ := hget hv
  obtain ⟨l, hl, hwl⟩ := hget hw
  have hmono : ∀ {i j k l : ℕ}, ns[i]? = some k → ns[j]? = some l → i < j → k < l := by
    intro i j k l hk hl hij
    obtain ⟨hi, rfl⟩ := List.getElem?_eq_some_iff.mp hk
    obtain ⟨hj, rfl⟩ := List.getElem?_eq_some_iff.mp hl
    exact List.pairwise_iff_getElem.mp hns i j hi hj hij
  rw [hvk, hwl] at hlen ⊢
  rw [NameSupply.nameOf_lt_nameOf_iff hlen]
  refine ⟨fun hkl => ?_, hmono hk hl⟩
  rcases lt_trichotomy i j with hij | rfl | hij
  · exact hij
  · obtain rfl : k = l := Option.some.inj (hk.symm.trans hl)
    exact absurd hkl (lt_irrefl k)
  · exact absurd hkl (hmono hl hk hij).asymm

end Scope.Ascending

/-- The argument is a use of the variable at a position of the scope. -/
def Arg.Uses (a : Arg K) (S : Scope K) (k : ℕ) : Prop :=
  ∃ u v, a = .subtree u ∧ u.isVariableUse = true ∧ S[k]? = some v ∧ u.name = v.name

namespace Arg.Uses

variable {a b : Arg K} {S : Scope K} {k l : ℕ}

theorem exists_nameOf (h : a.Uses S k) (hS : S.Ascending) :
    ∃ n, a.label = NameSupply.nameOf n := by
  obtain ⟨u, v, rfl, -, hv, hname⟩ := h
  obtain ⟨n, hn⟩ := hS.exists_nameOf (List.mem_of_getElem? hv)
  exact ⟨n, hname.trans hn⟩

theorem label_lt_label_iff (h : a.Uses S k) (h' : b.Uses S l) (hS : S.Ascending)
    (hlen : a.label.length = b.label.length) : a.label < b.label ↔ k < l := by
  obtain ⟨u, v, rfl, -, hv, hname⟩ := h
  obtain ⟨u', v', rfl, -, hv', hname'⟩ := h'
  rw [label, label, hname, hname'] at hlen ⊢
  exact hS.name_lt_name_iff hv hv' hlen

end Arg.Uses

namespace Tree

variable {g : Grammar K} {names names' : NameSupply} {M : Matching} {S T : Scope K}
  {s t m n : Tree K} {a a' b b' : Arg K} {as : List (Arg K)} {p : Place} {i : ℕ}
  {symmetric : List String}

theorem NamedInOrder.ascending_below (h : t.NamedInOrder S) : (S.below t.kind).Ascending := by
  obtain ⟨ns, hns, heq⟩ := h
  have hsub : ((S.below t.kind).map (·.name)).Sublist (ns.map NameSupply.nameOf) := by
    obtain ⟨nt, name, kind, args?⟩ := t
    rw [← heq, Scope.below_kind, introduced?_node, introducedNames_node, List.map_append]
    refine (List.Sublist.refl _).append ?_
    cases kind.introduced? <;> simp
  obtain ⟨ns', hsub, heq⟩ := List.sublist_map_iff.mp hsub
  exact ⟨ns', hns.sublist hsub, heq⟩

section Places

theorem ascending_iff {labels : List String} : isCanonicallyOrdered.ascending labels = true ↔
    ∀ (i : ℕ) x y, labels[i]? = some x → labels[i + 1]? = some y → ¬ y < x := by
  induction labels with
  | nil => simp [isCanonicallyOrdered.ascending]
  | cons x labels ih =>
    cases labels with
    | nil => simp [isCanonicallyOrdered.ascending]
    | cons y labels =>
      have hcons : isCanonicallyOrdered.ascending (x :: y :: labels) =
          (!decide (y < x) && isCanonicallyOrdered.ascending (y :: labels)) := rfl
      rw [hcons, Bool.and_eq_true, ih]
      constructor
      · rintro ⟨hxy, hrest⟩ i u v hu hv
        cases i with
        | zero =>
          cases hu
          cases hv
          simpa using hxy
        | succ i => exact hrest i u v hu hv
      · intro h
        exact ⟨by simpa using h 0 x y rfl rfl, fun i u v hu hv => h (i + 1) u v hu hv⟩

theorem areCanonicallyOrdered_iff : areCanonicallyOrdered symmetric as = true ↔
    ∀ c, .subtree c ∈ as → c.isCanonicallyOrdered symmetric = true := by
  induction as with
  | nil => simp [areCanonicallyOrdered]
  | cons a as ih => cases a <;> simp [areCanonicallyOrdered, ih]

theorem isCanonicallyOrdered_iff_args : t.isCanonicallyOrdered symmetric = true ↔
    (t.name ∈ symmetric → ∀ (i : ℕ) a b, t.args[i]? = some a → t.args[i + 1]? = some b →
      ¬ b.label < a.label) ∧
      ∀ c, .subtree c ∈ t.args → c.isCanonicallyOrdered symmetric = true := by
  obtain ⟨nt, name, kind, args?⟩ := t
  cases args? with
  | none => simp [isCanonicallyOrdered]
  | some as =>
    rw [isCanonicallyOrdered, Bool.and_eq_true, areCanonicallyOrdered_iff]
    refine and_congr_left fun _ => ?_
    simp only [Bool.or_eq_true, Bool.not_eq_true', ascending_iff, List.getElem?_map,
      Option.map_eq_some_iff, List.contains_eq_mem, decide_eq_false_iff_not, name_node, args_node,
      Option.getD_some]
    constructor
    · rintro (hnot | h) hmem i a b ha hb
      · exact absurd hmem hnot
      · exact h i _ _ ⟨a, ha, rfl⟩ ⟨b, hb, rfl⟩
    · intro h
      by_cases hmem : name ∈ symmetric
      · refine .inr ?_
        rintro i _ _ ⟨a, ha, rfl⟩ ⟨b, hb, rfl⟩
        exact h hmem i a b ha hb
      · exact .inl hmem

/-- A tree is in canonical order if at no place with a symmetric name a label is above the next. -/
theorem isCanonicallyOrdered_iff : t.isCanonicallyOrdered symmetric = true ↔
    ∀ p n, t.get? p = some n → n.name ∈ symmetric → ∀ (i : ℕ) a b, n.args[i]? = some a →
      n.args[i + 1]? = some b → ¬ b.label < a.label := by
  induction t using induction with
  | node nt name kind args? ih =>
    rw [isCanonicallyOrdered_iff_args]
    constructor
    · rintro ⟨hroot, hargs⟩ p n hn
      cases p with
      | nil =>
        obtain rfl : node nt name kind args? = n := by simpa using hn
        exact hroot
      | cons i p =>
        obtain ⟨c, hc, hcn⟩ := get?_cons_eq_some.mp hn
        have hmem := mem_args_of_child? hc
        exact (ih c hmem).mp (hargs c hmem) p n hcn
    · intro h
      refine ⟨h [] _ (get?_nil _), fun c hc => (ih c hc).mpr fun p n hn => ?_⟩
      obtain ⟨i, hi⟩ := List.getElem?_of_mem hc
      exact h (i :: p) n (get?_cons_eq_some.mpr ⟨c, child?_eq_some.mpr hi, hn⟩)

end Places

/-- Two uses of variables that are neighbours below a node of one of the names have names of the
same length. -/
def EvenlyNamed (t : Tree K) (symmetric : List String) : Prop :=
  ∀ p n (i : ℕ) u v, t.get? p = some n → n.name ∈ symmetric → n.args[i]? = some (.subtree u) →
    n.args[i + 1]? = some (.subtree v) → u.isVariableUse = true → v.isVariableUse = true →
      u.name.length = v.name.length

section Labels

/-- An argument fills in a place either by a plain label, which its counterpart has as well, or by a
use of a variable, and then its counterpart uses the variable at the same position of the other
scope. -/
theorem label_cases (hm : g.Derived names S m) (hn : g.Derived names' T n) (hplain : m.PlainNames)
    (hal : Scope.Aligned M S T) (hvar : m.VariantOver M n) (ha : m.args[i]? = some a)
    (hb : n.args[i]? = some b) : (PlainName a.label ∧ a.label = b.label) ∨
      ∃ k, a.Uses (S.below m.kind) k ∧ b.Uses (T.below n.kind) k := by
  have hab := forall₂_iff_getElem?.mp hvar.args i
  rw [ha, hb] at hab
  have hmem := List.mem_of_getElem? ha
  have hmem' := List.mem_of_getElem? hb
  obtain ⟨-, -, -, hterminals, hargs⟩ := hplain
  cases hab with
  | some hab =>
    cases hab with
    | terminal x => exact .inl ⟨(hterminals x hmem).1, rfl⟩
    | @subtree c d hcd =>
      cases huse : c.isVariableUse with
      | false =>
        obtain ⟨-, hname, -⟩ := hargs c hmem
        refine .inl ⟨hname fun hkind => ?_, hcd.name_eq huse⟩
        simp [Grammar.isVariableUse_iff_kind.mpr hkind] at huse
      | true =>
        have huse' : d.isVariableUse = true := hcd.isVariableUse_eq ▸ huse
        obtain ⟨v, hv, hvc⟩ := List.mem_map.mp ((hm.child hmem).name_mem_scope huse)
        obtain ⟨w, hw, hwd⟩ := List.mem_map.mp ((hn.child hmem').name_mem_scope huse')
        obtain ⟨k, hk⟩ := List.getElem?_of_mem hv
        obtain ⟨l, hl⟩ := List.getElem?_of_mem hw
        obtain rfl : k = l := by
          refine ((hm.aligned_below hn hal hvar.head).names k l v w hk hl).mp ?_
          rw [hvc, hwd]
          exact hcd.names_match huse
        exact .inr ⟨k, ⟨c, v, rfl, huse, hk, hvc.symm⟩, ⟨d, w, rfl, huse', hl, hwd.symm⟩⟩

/-- Neighbours below corresponding nodes are in the same order, if variables that are neighbours
have names of the same length. -/
theorem label_lt_label_iff (hm : g.Derived names S m) (hn : g.Derived names' T n)
    (hplain : m.PlainNames) (hal : Scope.Aligned M S T) (hvar : m.VariantOver M n)
    (hS : m.NamedInOrder S) (hT : n.NamedInOrder T)
    (ha : m.args[i]? = some a) (hb : n.args[i]? = some b)
    (ha' : m.args[i + 1]? = some a') (hb' : n.args[i + 1]? = some b')
    (heven : ∀ k l, a.Uses (S.below m.kind) k → a'.Uses (S.below m.kind) l →
      a.label.length = a'.label.length)
    (heven' : ∀ k l, b.Uses (T.below n.kind) k → b'.Uses (T.below n.kind) l →
      b.label.length = b'.label.length) :
    a'.label < a.label ↔ b'.label < b.label := by
  have hS := hS.ascending_below
  have hT := hT.ascending_below
  rcases label_cases hm hn hplain hal hvar ha hb with ⟨hx, hsame⟩ | ⟨k, hak, hbk⟩
  · rcases label_cases hm hn hplain hal hvar ha' hb' with ⟨-, hsame'⟩ | ⟨l, hal, hbl⟩
    · rw [hsame, hsame']
    · obtain ⟨j, hj⟩ := hal.exists_nameOf hS
      obtain ⟨j', hj'⟩ := hbl.exists_nameOf hT
      rw [← hsame, hj, hj']
      exact NameSupply.nameOf_lt_plain_iff hx j j'
  · rcases label_cases hm hn hplain hal hvar ha' hb' with ⟨hx, hsame'⟩ | ⟨l, hal, hbl⟩
    · obtain ⟨j, hj⟩ := hak.exists_nameOf hS
      obtain ⟨j', hj'⟩ := hbk.exists_nameOf hT
      rw [← hsame', hj, hj']
      exact NameSupply.plain_lt_nameOf_iff hx j j'
    · rw [hal.label_lt_label_iff hak hS (heven k l hak hal).symm,
        hbl.label_lt_label_iff hbk hT (heven' k l hbk hbl).symm]

end Labels

theorem EvenlyNamed.length_eq {k l : ℕ} (h : t.EvenlyNamed symmetric) (hn : t.get? p = some n)
    (hmem : n.name ∈ symmetric) (ha : n.args[i]? = some a) (ha' : n.args[i + 1]? = some a')
    (hak : a.Uses S k) (hal : a'.Uses S l) : a.label.length = a'.label.length := by
  obtain ⟨u, -, rfl, huse, -⟩ := hak
  obtain ⟨u', -, rfl, huse', -⟩ := hal
  exact h p n i u u' hn hmem ha ha' huse huse'

/-- A derived tree whose binders have names of one length is evenly named. -/
theorem evenlyNamed_of_length {l : ℕ} (ht : g.Derived names [] t)
    (h : ∀ x ∈ t.introducedNames, x.length = l) (symmetric : List String) :
    t.EvenlyNamed symmetric := by
  intro p n i u v hn _ hu hv huse huse'
  have hmem : ∀ {j : ℕ} {c : Tree K}, n.args[j]? = some (.subtree c) → c.isVariableUse = true →
      c.name.length = l := fun hc huse =>
    h _ (ht.mem_introducedNames_of_use (get?_concat hn (child?_eq_some.mpr hc)) huse)
  rw [hmem hu huse, hmem hv huse']

/-- A variant of a tree in canonical order is in canonical order. -/
theorem isCanonicallyOrdered_of_variant (hplain : g.PlainNames) (hs : g.Derivable names s)
    (ht : g.Derivable names' t) (hsorder : s.NamedInOrder []) (htorder : t.NamedInOrder [])
    (hvar : s.Variant t) (hfixed : ∀ x ∈ symmetric, x ∉ t.introducedNames)
    (hseven : s.EvenlyNamed symmetric) (hteven : t.EvenlyNamed symmetric)
    (h : s.isCanonicallyOrdered symmetric = true) : t.isCanonicallyOrdered symmetric = true := by
  rw [isCanonicallyOrdered_iff] at h ⊢
  intro p n hn hmem i b b' hb hb'
  obtain ⟨m, hm⟩ : ∃ m, s.get? p = some m := by
    obtain ⟨-, m, hm, -⟩ := VariantOver.at_place hvar.symm hn
    exact ⟨m, hm⟩
  have hagree := (VariantOver.at_place hvar hm).1
  have hcorr := VariantOver.at_both hvar hm hn
  -- the name of a variable is issued, so it is not symmetric
  have hname : m.name = n.name := by
    cases huse : m.isVariableUse with
    | false => exact hcorr.name_eq huse
    | true =>
      have huse' : n.isVariableUse = true := hcorr.isVariableUse_eq ▸ huse
      exact absurd (ht.toDerived.mem_introducedNames_of_use hn huse') (hfixed _ hmem)
  have hget : ∀ {j : ℕ} {b : Arg K}, n.args[j]? = some b → ∃ a, m.args[j]? = some a := by
    intro j b hb
    obtain ⟨hj, -⟩ := List.getElem?_eq_some_iff.mp hb
    exact ⟨_, List.getElem?_eq_getElem (hcorr.args.length_eq ▸ hj)⟩
  obtain ⟨a, ha⟩ := hget hb
  obtain ⟨a', ha'⟩ := hget hb'
  have hal := hagree.headsAlong.aligned hs.toDerived ht.toDerived (.nil Eq)
  have hiff := label_lt_label_iff (hs.derived_at hm) (ht.derived_at hn)
    ((hs.plainNames hplain).at_place hm) hal hcorr (hsorder.at_place hm) (htorder.at_place hn)
    ha hb ha' hb'
    (fun _ _ => hseven.length_eq hm (hname ▸ hmem) ha ha')
    (fun _ _ => hteven.length_eq hn hmem hb hb')
  exact fun hlt => h p m hm (hname ▸ hmem) i a a' ha ha' (hiff.mpr hlt)

/-- Trees that count as equal are both in canonical order or neither is, however they were made, as
long as the names of neighbouring variables have one length in each of them and no issued name is
among the symmetric ones. -/
theorem isCanonicallyOrdered_eq_of_alike [Scalar K] (hdist : g.DistinctSignatures)
    (hplain : g.PlainNames) (hs : g.Made s) (ht : g.Made t) (halike : s.alike t = true)
    (hfixed : ∀ x ∈ symmetric, x ∉ s.introducedNames ∧ x ∉ t.introducedNames)
    (hseven : s.EvenlyNamed symmetric) (hteven : t.EvenlyNamed symmetric) :
    s.isCanonicallyOrdered symmetric = t.isCanonicallyOrdered symmetric := by
  obtain ⟨⟨names, hs⟩, hsorder⟩ := hs.spec hplain
  obtain ⟨⟨names', ht⟩, htorder⟩ := ht.spec hplain
  have hvar : s.Variant t := (alike_iff hdist hplain hs ht).mp halike
  exact Bool.eq_iff_iff.mpr
    ⟨isCanonicallyOrdered_of_variant hplain hs ht hsorder htorder hvar
        (fun x hx => (hfixed x hx).2) hseven hteven,
      isCanonicallyOrdered_of_variant hplain ht hs htorder hsorder hvar.symm
        (fun x hx => (hfixed x hx).1) hteven hseven⟩

/-- The function of two arguments that applies the first to the second, where the names of its
variables have these numbers. -/
def applyTerm [Scalar K] (k l : ℕ) : Tree K :=
  .node "T" "fn" (.binder ⟨"T", NameSupply.nameOf k, none, 1, .variableUse "y"⟩) (some [.subtree
    (.node "T" "fn" (.binder ⟨"T", NameSupply.nameOf l, none, 1, .variableUse "y"⟩) (some [.subtree
      (.node "T" "app" .plain (some
        [.subtree (.node "T" (NameSupply.nameOf k) .variableUse none),
          .subtree (.node "T" (NameSupply.nameOf l) .variableUse none)]))]))])

/-- The function is read from one text with names of five characters and again with names of six,
and is in canonical order both times. -/
theorem isCanonicallyOrdered_eq_of_alike_applyTerm :
    let g : Grammar Float := Grammar.terms
    let s : Tree Float := applyTerm 0 1
    let t : Tree Float := applyTerm 11 12
    (g.DistinctSignatures ∧ g.PlainNames ∧ g.Made s ∧ g.Made t ∧ s.alike t = true ∧
        (∀ x ∈ ["app"], x ∉ s.introducedNames ∧ x ∉ t.introducedNames) ∧
        s.EvenlyNamed ["app"] ∧ t.EvenlyNamed ["app"]) ∧
      s.isCanonicallyOrdered ["app"] = true ∧ t.isCanonicallyOrdered ["app"] = true := by
  intro g s t
  have hplain : g.PlainNames := Grammar.plainNames_terms
  have hsmade : g.Made s := .unpacked "T" "11234" .initial ⟨2⟩ rfl
  have htmade : g.Made t := .unpacked "T" "11234" ⟨11⟩ ⟨13⟩ rfl
  obtain ⟨⟨names, hs⟩, -⟩ := hsmade.spec hplain
  obtain ⟨⟨names', ht⟩, -⟩ := htmade.spec hplain
  have hseven : s.EvenlyNamed ["app"] := evenlyNamed_of_length hs.toDerived (l := 5) (by decide) _
  have hteven : t.EvenlyNamed ["app"] := evenlyNamed_of_length ht.toDerived (l := 6) (by decide) _
  have halike : s.alike t = true := by decide
  have hfixed : ∀ x ∈ ["app"], x ∉ s.introducedNames ∧ x ∉ t.introducedNames := by decide
  have hsorted : s.isCanonicallyOrdered ["app"] = true := by decide
  refine ⟨⟨Grammar.distinctSignatures_terms, hplain, hsmade, htmade, halike, hfixed, hseven, hteven⟩,
    hsorted, ?_⟩
  rw [← isCanonicallyOrdered_eq_of_alike Grammar.distinctSignatures_terms hplain hsmade htmade halike
    hfixed hseven hteven]
  exact hsorted

/-- The same function is in canonical order if its variables have the numbers 0 and 1, but not if
these are 9 and 10. Then neither it nor, with the numbers 11 and 12, the function with the arguments
exchanged is in canonical order, so of the two commuted duplicates none is kept. -/
theorem not_isCanonicallyOrdered_of_alike :
    let g : Grammar Float := Grammar.terms
    let s : Tree Float := applyTerm 0 1
    let t : Tree Float := applyTerm 9 10
    (g.unpackFrom "T" "11234" .initial = (.ok s, ⟨2⟩) ∧
        g.unpackFrom "T" "11234" ⟨9⟩ = (.ok t, ⟨11⟩)) ∧
      s.alike t = true ∧ s.isCanonicallyOrdered ["app"] = true ∧
        t.isCanonicallyOrdered ["app"] = false ∧
          ∃ u, g.unpackFrom "T" "11243" ⟨11⟩ = (.ok u, ⟨13⟩) ∧
            u.isCanonicallyOrdered ["app"] = false :=
  ⟨⟨rfl, rfl⟩, by decide, by decide, by decide, _, rfl, by decide⟩

end Tree

end ScopedGrammar
