import ScopedGrammar.Move.Difference
import ScopedGrammar.Proofs.Tree.Outer

/-!
# Where derivable trees differ

An edit can account for the differences of two trees only at the place where they begin to differ
or above it: every place off which the trees agree is found among these. If both trees are complete
the converse holds as well, so these are exactly the places of such edits.
-/
namespace ScopedGrammar.Tree

variable {K : Type}

section Heads

variable {g : Grammar K} {names names' : NameSupply} {s t m n : Tree K} {p : Place}

/-- The symbols of a node in brackets, as far as it has arguments. -/
def symbolsText (t : Tree K) : String :=
  match t.args? with
  | none => ""
  | some as => "(" ++ ", ".intercalate (as.map Arg.symbol) ++ ")"

theorem headAt_eq (hm : s.get? p = some m) : s.headAt p =
    some (shownName (outerNames 0 s p) m.name m.kind ++ "<" ++ m.nonterminal ++ ">" ++
      (if m.isBinder then ":" else "") ++ m.symbolsText) := by
  rw [headAt, hm]
  rfl

/-- Plain texts with commas in between can be told apart, but for no text at all and one that is
empty. -/
theorem symbols_cancel {xs ys : List (List Char)} (hxs : ∀ x ∈ xs, ∀ c ∈ x, c ∉ separators)
    (hys : ∀ y ∈ ys, ∀ c ∈ y, c ∉ separators)
    (h : [',', ' '].intercalate xs = [',', ' '].intercalate ys) : xs = ys ∨ xs = [] ∨ ys = [] := by
  by_cases hx : xs = []
  · exact .inr (.inl hx)
  by_cases hy : ys = []
  · exact .inr (.inr hy)
  refine .inl ?_
  induction xs generalizing ys with
  | nil => exact absurd rfl hx
  | cons x xs ih =>
    cases ys with
    | nil => exact absurd rfl hy
    | cons y ys =>
      have hsplit : ∀ (z : List Char) (zs : List (List Char)),
          [',', ' '].intercalate (z :: zs) =
            z ++ if zs = [] then [] else ',' :: ' ' :: [',', ' '].intercalate zs := by
        intro z zs
        simpa using intercalate_cons_append z zs []
      have hbegins : ∀ zs : List (List Char), Begins (· ∈ separators)
          (if zs = [] then [] else ',' :: ' ' :: [',', ' '].intercalate zs) := by
        intro zs
        split
        · simp [Begins]
        · exact begins_cons.mpr (by decide)
      rw [hsplit, hsplit] at h
      obtain ⟨rfl, hrest⟩ := append_cancel_begins h (P := (· ∈ separators))
        (hxs x List.mem_cons_self) (hys y List.mem_cons_self) (hbegins xs) (hbegins ys)
      by_cases hx' : xs = []
      · by_cases hy' : ys = []
        · rw [hx', hy']
        · rw [if_pos hx', if_neg hy'] at hrest
          cases hrest
      · by_cases hy' : ys = []
        · rw [if_neg hx', if_pos hy'] at hrest
          cases hrest
        · rw [if_neg hx', if_neg hy'] at hrest
          have hinter := (List.cons.inj (List.cons.inj hrest).2).2
          rw [ih (fun z hz => hxs z (List.mem_cons_of_mem _ hz))
            (fun z hz => hys z (List.mem_cons_of_mem _ hz)) hinter hx' hy']

theorem HeadOver.imp {M N : Matching} (h : HeadOver M s t)
    (himp : s.kind = .variableUse → t.kind = .variableUse → M s.name t.name → N s.name t.name) :
    HeadOver N s t := by
  refine ⟨h.nonterminal_eq, ?_, h.isSome_eq⟩
  have hkind := h.kind
  cases hs : s.kind <;> cases ht : t.kind <;> rw [hs, ht] at hkind <;> try exact hkind
  exact himp hs ht hkind

theorem isBinder_eq (t : Tree K) : t.isBinder = t.kind.introduced?.isSome := by
  rw [isBinder, introduced?_eq]

theorem toList_symbolsText (t : Tree K) : t.symbolsText.toList =
    match t.args? with
    | none => []
    | some as => '(' :: ([',', ' '].intercalate (as.map fun a => a.symbol.toList) ++ [')']) := by
  unfold symbolsText
  cases t.args? with
  | none => rfl
  | some as => simp [Function.comp_def]

/-- What follows the nonterminal in the form of a node tells whether it is a binder, and the symbols
of its arguments if both nodes have any. -/
theorem suffix_cancel (hm : ∀ a ∈ m.args, PlainName a.symbol) (hn : ∀ a ∈ n.args, PlainName a.symbol)
    (h : (if m.isBinder then ":" else "").toList ++ m.symbolsText.toList =
      (if n.isBinder then ":" else "").toList ++ n.symbolsText.toList) :
    (m.isBinder = n.isBinder ∧
      m.args?.map (·.map Arg.symbol) = n.args?.map (·.map Arg.symbol)) ∨
        m.args = [] ∨ n.args = [] := by
  by_cases hm₀ : m.args = []
  · exact .inr (.inl hm₀)
  by_cases hn₀ : n.args = []
  · exact .inr (.inr hn₀)
  have hsome : ∀ t : Tree K, t.args ≠ [] → t.args? = some t.args := by
    intro t ht
    unfold args at ht ⊢
    cases has : t.args? with
    | none => simp [has] at ht
    | some as => rfl
  rw [toList_symbolsText, toList_symbolsText, hsome m hm₀, hsome n hn₀] at h
  rw [hsome m hm₀, hsome n hn₀]
  have hflag : m.isBinder = n.isBinder := by
    cases hb : m.isBinder <;> cases hb' : n.isBinder <;> simp [hb, hb'] at h ⊢
  simp only [hflag, List.append_cancel_left_eq, List.cons.injEq, true_and,
    List.append_cancel_right_eq] at h
  have hplain : ∀ as : List (Arg K), (∀ a ∈ as, PlainName a.symbol) →
      ∀ x ∈ as.map fun a => a.symbol.toList, ∀ c ∈ x, c ∉ separators := by
    intro as has x hx
    obtain ⟨a, ha, rfl⟩ := List.mem_map.mp hx
    exact PlainName.not_mem_separators (has a ha)
  rcases symbols_cancel (hplain _ hm) (hplain _ hn) h with hsym | hnil | hnil
  · refine .inl ⟨hflag, congrArg some ?_⟩
    have hmap := congrArg (List.map String.ofList) hsym
    simpa [Function.comp_def] using hmap
  · exact absurd (List.map_eq_nil_iff.mp hnil) hm₀
  · exact absurd (List.map_eq_nil_iff.mp hnil) hn₀

/-- Two uses of variables are printed in the same way exactly if the variables correspond. -/
theorem HeadsAlong.apply_use_iff (hplain : g.PlainNames) (hs : g.Derivable names s)
    (ht : g.Derivable names' t) (h : HeadsAlong Eq s t p) (hm : s.get? p = some m)
    (hn : t.get? p = some n) (hk : m.kind = .variableUse) (hk' : n.kind = .variableUse) :
    (outerNames 0 s p).apply m.name = (outerNames 0 t p).apply n.name ↔
      Matching.along Eq s t p m.name n.name := by
  obtain ⟨v, hv, hvm⟩ := List.mem_map.mp
    ((hs.derived_at hm).name_mem_scope (Grammar.isVariableUse_iff_kind.mpr hk))
  obtain ⟨w, hw, hwn⟩ := List.mem_map.mp
    ((ht.derived_at hn).name_mem_scope (Grammar.isVariableUse_iff_kind.mpr hk'))
  rw [← hvm, ← hwn]
  exact h.apply_eq_iff hs.toDerived ht.toDerived (.nil Eq) (hs.plainNames hplain)
    (ht.plainNames hplain) 0 hv hw

/-- Nodes of one form correspond to each other, unless one of them has no arguments. -/
theorem headOver_of_headAt (hdist : g.DistinctSignatures) (hplain : g.PlainNames)
    (hs : g.Derivable names s) (ht : g.Derivable names' t) (h : HeadsAlong Eq s t p)
    (hm : s.get? p = some m) (hn : t.get? p = some n) (heq : s.headAt p = t.headAt p) :
    (HeadOver (Matching.along Eq s t p) m n ∧ m.args.map Arg.symbol = n.args.map Arg.symbol) ∨
      m.args = [] ∨ n.args = [] := by
  have hdm := hs.derived_at hm
  have hdn := ht.derived_at hn
  have hshows := shows_outerNames hplain hs.toDerived hm
  have hshows' := shows_outerNames hplain ht.toDerived hn
  have hpm := (hs.plainNames hplain).at_place hm
  have hpn := (ht.plainNames hplain).at_place hn
  have habove := hs.toDerived.plainVariables_above hplain (by simp) hm
  have habove' := ht.toDerived.plainVariables_above hplain (by simp) hn
  obtain ⟨hnt, hname, -, hsymbols⟩ := hdm.plain_root hplain (by simpa using habove)
  obtain ⟨hnt', hname', -, hsymbols'⟩ := hdn.plain_root hplain (by simpa using habove')
  rw [headAt_eq hm, headAt_eq hn] at heq
  have hchars := congrArg String.toList (Option.some.inj heq)
  simp only [String.toList_append, List.append_assoc] at hchars
  obtain ⟨hshown, hnts, hrest⟩ := heading_cancel (shownName_spec hdm hpm hshows)
    (shownName_spec hdn hpn hshows') (PlainName.not_mem_separators hnt)
    (PlainName.not_mem_separators hnt') hchars
  have hargs : ∀ {t : Tree K}, g.PlainSymbols (t.args.map Arg.symbol) →
      ∀ a ∈ t.args, PlainName a.symbol := fun h a ha => (h _ (List.mem_map_of_mem ha)).1
  rcases suffix_cancel (hargs hsymbols) (hargs hsymbols') hrest with ⟨hbinder, hsym⟩ | hnil
  · rw [isBinder_eq, isBinder_eq] at hbinder
    have hhead := headOver_of_text hdist hdm hdn hname hname' hshows hshows'
      (String.toList_inj.mp hnts) (String.toList_inj.mp hshown) hbinder hsym
    refine .inl ⟨hhead.imp fun hk hk' hprinted => ?_, ?_⟩
    · exact (h.apply_use_iff hplain hs ht hm hn hk hk').mp hprinted
    · have hget := congrArg (Option.getD · []) hsym
      unfold args
      cases hm? : m.args? <;> cases hn? : n.args? <;> simp_all
  · exact .inr hnil

/-- Corresponding nodes have one form. -/
theorem headAt_eq_of_headOver (hplain : g.PlainNames) (hs : g.Derivable names s)
    (ht : g.Derivable names' t) (h : HeadsAlong Eq s t p) (hm : s.get? p = some m)
    (hn : t.get? p = some n) (hhead : HeadOver (Matching.along Eq s t p) m n)
    (hsymbols : m.args.map Arg.symbol = n.args.map Arg.symbol) : s.headAt p = t.headAt p := by
  have hshown : shownName (outerNames 0 s p) m.name m.kind =
      shownName (outerNames 0 t p) n.name n.kind := by
    have hkind := hhead.kind
    cases hk : m.kind <;> cases hk' : n.kind <;> rw [hk, hk'] at hkind <;> try exact hkind.elim
    · exact hkind
    · exact hkind.1
    · exact (h.apply_use_iff hplain hs ht hm hn hk hk').mpr hkind
  have hbinder : m.isBinder = n.isBinder := by
    rw [isBinder_eq, isBinder_eq]
    exact isSome_eq_of_rel hhead.introduced?
  have htext : m.symbolsText = n.symbolsText := by
    have hsome := hhead.isSome_eq
    unfold symbolsText
    unfold args at hsymbols
    cases hm? : m.args? <;> cases hn? : n.args? <;> simp_all
  rw [headAt_eq hm, headAt_eq hn, hshown, hhead.nonterminal_eq, hbinder, htext]

end Heads

section Children

variable {t c : Tree K} {i : ℕ}

theorem mem_subtreesFrom {as : List (Arg K)} {k : ℕ} :
    (i, c) ∈ subtreesFrom k as ↔ ∃ j, i = k + j ∧ as[j]? = some (.subtree c) := by
  induction as generalizing k with
  | nil => simp [subtreesFrom]
  | cons a as ih =>
    have hsplit : (∃ j, i = k + j ∧ (a :: as)[j]? = some (.subtree c)) ↔
        (i = k ∧ a = .subtree c) ∨ ∃ j, i = k + 1 + j ∧ as[j]? = some (.subtree c) := by
      constructor
      · rintro ⟨_ | j, rfl, hj⟩
        · exact .inl ⟨rfl, by simpa using hj⟩
        · exact .inr ⟨j, by omega, hj⟩
      · rintro (⟨rfl, rfl⟩ | ⟨j, rfl, hj⟩)
        · exact ⟨0, rfl, rfl⟩
        · exact ⟨j + 1, by omega, hj⟩
    rw [hsplit, ← ih]
    cases a with
    | subtree t => simp [subtreesFrom, eq_comm]
    | terminal s => simp [subtreesFrom]

theorem mem_childrenWithIndex : (i, c) ∈ t.childrenWithIndex ↔ t.child? i = some c := by
  rw [childrenWithIndex, mem_subtreesFrom, child?_eq_some]
  simp

theorem nodup_subtreesFrom (as : List (Arg K)) (k : ℕ) : ((subtreesFrom k as).map (·.1)).Nodup := by
  induction as generalizing k with
  | nil => simp [subtreesFrom]
  | cons a as ih =>
    cases a with
    | terminal s => exact ih (k + 1)
    | subtree t =>
      rw [subtreesFrom, List.map_cons, List.nodup_cons]
      refine ⟨fun hmem => ?_, ih (k + 1)⟩
      obtain ⟨⟨j, c⟩, hj, rfl⟩ := List.mem_map.mp hmem
      obtain ⟨l, hl, -⟩ := mem_subtreesFrom.mp hj
      have hlt : j = j + 1 + l := hl
      omega

theorem nodup_childrenWithIndex (t : Tree K) : (t.childrenWithIndex.map (·.1)).Nodup :=
  nodup_subtreesFrom t.args 0

end Children

section Descent

variable {g : Grammar K} {names names' : NameSupply} {s t m n : Tree K} {p q : Place} {i j : ℕ}

theorem mem_differingChildren : i ∈ s.differingChildren t n p ↔
    (∃ c, n.child? i = some c) ∧ s.canonicalAt (p ++ [i]) ≠ t.canonicalAt (p ++ [i]) := by
  simp only [differingChildren, List.mem_filter, List.mem_map, Prod.exists, exists_and_right,
    exists_eq_right, mem_childrenWithIndex, bne_iff_ne]

/-- Where the nodes at a place correspond, a child differs exactly if it does not correspond. -/
theorem canonicalAt_child_eq_iff (hdist : g.DistinctSignatures) (hplain : g.PlainNames)
    (hs : g.Derivable names s) (ht : g.Derivable names' t) (h : HeadsAlong Eq s t p)
    (hm : s.get? p = some m) (hn : t.get? p = some n)
    (hhead : HeadOver (Matching.along Eq s t p) m n) {c d : Tree K} (hc : m.child? i = some c)
    (hd : n.child? i = some d) : s.canonicalAt (p ++ [i]) = t.canonicalAt (p ++ [i]) ↔
      c.VariantOver ((Matching.along Eq s t p).below m.kind n.kind) d := by
  have hchild : s.get? (p ++ [i]) = some c := get?_concat hm hc
  have hchild' : t.get? (p ++ [i]) = some d := get?_concat hn hd
  have hpath : HeadsAlong Eq s t (p ++ [i]) :=
    (headsAlong_append p [i]).mpr ⟨h, m, n, hm, hn, .child hhead hc hd .here⟩
  have hmatch : Matching.along Eq s t (p ++ [i]) =
      (Matching.along Eq s t p).below m.kind n.kind := by
    rw [along_append hm hn, along_cons hc hd]
    rfl
  rw [canonicalAt_eq_iff hchild hchild', hpath.alikeAt_iff hdist hplain hs ht hchild hchild', hmatch]

/-- If the trees agree off a place further down, the nodes here correspond, and only the child on
the way differs. -/
theorem AgreeOff.differingChildren (hdist : g.DistinctSignatures) (hplain : g.PlainNames)
    (hs : g.Derivable names s) (ht : g.Derivable names' t) (hm : s.get? p = some m)
    (hdiff : ¬ s.alikeAt p t p = true) {rest : Place} (h : AgreeOff Eq s t (p ++ j :: rest)) :
    s.headAt p = t.headAt p ∧ s.differingChildren t m p = [j] ∧
      (∃ c, m.child? j = some c) ∧ ∃ n d, t.get? p = some n ∧ n.child? j = some d := by
  obtain ⟨hp, m', n, hm', hn, hbelow⟩ := (agreeOff_append p (j :: rest)).mp h
  obtain rfl : m = m' := Option.some.inj (hm.symm.trans hm')
  cases hbelow with
  | @child _ _ _ c d _ _ hhead hsymbols hc hd hothers hrest =>
    have hchild := fun {i : ℕ} {c d : Tree K} (hc : m.child? i = some c) (hd : n.child? i = some d) =>
      canonicalAt_child_eq_iff hdist hplain hs ht hp.headsAlong hm hn hhead hc hd
    -- the children beside the way correspond, and those on it do not, as the trees differ here
    have honly : ∀ i ∈ s.differingChildren t m p, i = j := by
      intro i hi
      obtain ⟨⟨c', hc'⟩, hne⟩ := mem_differingChildren.mp hi
      by_contra hij
      have hrel := hothers i hij
      rw [child?_eq_some.mp hc'] at hrel
      cases hget : n.args[i]? with
      | none =>
        rw [hget] at hrel
        cases hrel
      | some b =>
        rw [hget] at hrel
        cases hrel with
        | some hab =>
          cases hab with
          | subtree hvar => exact hne ((hchild hc' (child?_eq_some.mpr hget)).mpr hvar)
    have hdiffers : j ∈ s.differingChildren t m p := by
      refine mem_differingChildren.mpr ⟨⟨c, hc⟩, fun heq => hdiff ?_⟩
      rw [hp.headsAlong.alikeAt_iff hdist hplain hs ht hm hn, variantOver_iff]
      refine ⟨hhead, forall₂_iff_getElem?.mpr fun i => ?_⟩
      by_cases hij : i = j
      · subst hij
        rw [child?_eq_some.mp hc, child?_eq_some.mp hd]
        exact .some (.subtree ((hchild hc hd).mp heq))
      · exact hothers i hij
    have hnodup : (s.differingChildren t m p).Nodup := (nodup_childrenWithIndex m).filter _
    refine ⟨headAt_eq_of_headOver hplain hs ht hp.headsAlong hm hn hhead hsymbols, ?_, ⟨c, hc⟩,
      n, d, hn, hd⟩
    exact List.perm_singleton.mp ((List.perm_ext_iff_of_nodup hnodup (by simp)).mpr fun i => by
      rw [List.mem_singleton]
      exact ⟨honly i, fun h => h ▸ hdiffers⟩)

/-- If only one child differs, complete trees agree off it as far as they agree off its parent. -/
theorem AgreeOff.step (hdist : g.DistinctSignatures) (hplain : g.PlainNames)
    (hs : g.Derivable names s) (ht : g.Derivable names' t) (hcs : g.Complete s)
    (hct : g.Complete t) (hm : s.get? p = some m) (hn : t.get? p = some n)
    (hhead : HeadOver (Matching.along Eq s t p) m n)
    (hsymbols : m.args.map Arg.symbol = n.args.map Arg.symbol) {c d : Tree K}
    (hc : m.child? i = some c) (hd : n.child? i = some d)
    (honly : s.differingChildren t m p = [i]) (h : AgreeOff Eq s t p) :
    AgreeOff Eq s t (p ++ [i]) := by
  refine (agreeOff_append p [i]).mpr ⟨h, m, n, hm, hn, .child hhead hsymbols hc hd ?_ .here⟩
  intro j hj
  have hsymbol : m.args[j]?.map Arg.symbol = n.args[j]?.map Arg.symbol := by
    rw [← List.getElem?_map, ← List.getElem?_map, hsymbols]
  obtain ⟨hfilled, -⟩ := hcs.at_place hm
  obtain ⟨hfilled', -⟩ := hct.at_place hn
  cases ha : m.args[j]? with
  | none =>
    cases hb : n.args[j]? with
    | none => exact .none
    | some b => simp [ha, hb] at hsymbol
  | some a =>
    cases hb : n.args[j]? with
    | none => simp [ha, hb] at hsymbol
    | some b =>
      have hsame : a.symbol = b.symbol := by simpa [ha, hb] using hsymbol
      have hfill := hfilled a (List.mem_of_getElem? ha)
      have hfill' := hfilled' b (List.mem_of_getElem? hb)
      rw [hsame, ← hfill'] at hfill
      cases a with
      | terminal x =>
        cases b with
        | terminal y =>
          obtain rfl : x = y := hsame
          exact .some (.terminal x)
        | subtree d' => simp [Arg.asTree?] at hfill
      | subtree c' =>
        cases b with
        | terminal y => simp [Arg.asTree?] at hfill
        | subtree d' =>
          have hc' : m.child? j = some c' := child?_eq_some.mpr ha
          have hd' : n.child? j = some d' := child?_eq_some.mpr hb
          refine .some (.subtree ?_)
          rw [← canonicalAt_child_eq_iff hdist hplain hs ht h.headsAlong hm hn hhead hc' hd']
          by_contra hne
          have hmem := mem_differingChildren.mpr ⟨⟨c', hc'⟩, hne⟩
          rw [honly, List.mem_singleton] at hmem
          exact hj hmem

/-- Nodes that look the same and have a subtree at the same position correspond to each other. -/
theorem headOver_of_child (hdist : g.DistinctSignatures) (hplain : g.PlainNames)
    (hs : g.Derivable names s) (ht : g.Derivable names' t) (hpath : HeadsAlong Eq s t p)
    (hm : s.get? p = some m) (hn : t.get? p = some n) (hhead : s.headAt p = t.headAt p)
    {c d : Tree K} (hc : m.child? i = some c) (hd : n.child? i = some d) :
    HeadOver (Matching.along Eq s t p) m n ∧ m.args.map Arg.symbol = n.args.map Arg.symbol := by
  rcases headOver_of_headAt hdist hplain hs ht hpath hm hn hhead with h | hnone | hnone
  · exact h
  · exact absurd hnone (List.ne_nil_of_mem (mem_args_of_child? hc))
  · exact absurd hnone (List.ne_nil_of_mem (mem_args_of_child? hd))

/-- If the trees agree off no place below one, they agree only off places above it. -/
theorem prefix_of_agreeOff (hsplit : ∀ p', AgreeOff Eq s t p' → p' <+: p ∨ p <+: p')
    (hnone : ∀ j rest, ¬ AgreeOff Eq s t (p ++ j :: rest)) :
    ∀ p', AgreeOff Eq s t p' → p' <+: p := by
  intro p' hp'
  rcases hsplit p' hp' with h | ⟨_ | ⟨j, rest⟩, rfl⟩
  · exact h
  · simp
  · exact absurd hp' (hnone j rest)

/-- If the trees agree below a place only off places at one child or below it, they agree only off
places above or below this child. -/
theorem prefix_or_of_agreeOff (hsplit : ∀ p', AgreeOff Eq s t p' → p' <+: p ∨ p <+: p')
    (honly : ∀ j rest, AgreeOff Eq s t (p ++ j :: rest) → j = i) :
    ∀ p', AgreeOff Eq s t p' → p' <+: p ++ [i] ∨ p ++ [i] <+: p' := by
  intro p' hp'
  rcases hsplit p' hp' with h | ⟨_ | ⟨j, rest⟩, rfl⟩
  · exact .inl (h.trans (List.prefix_append p [i]))
  · exact .inl (by simp)
  · obtain rfl := honly j rest hp'
    exact .inr ⟨rest, by simp⟩

/-- Going down from a place at which the trees differ ends at a place above which all places lie
off which the trees agree. -/
theorem descend_spec (hdist : g.DistinctSignatures) (hplain : g.PlainNames)
    (hs : g.Derivable names s) (ht : g.Derivable names' t) {levels : ℕ}
    (hpath : HeadsAlong Eq s t p) (hm : s.get? p = some m) (hlevels : m.depth < levels)
    (hdiff : ¬ s.alikeAt p t p = true)
    (hsplit : ∀ p', AgreeOff Eq s t p' → p' <+: p ∨ p <+: p') :
    ∃ q, descend s t levels m p = some q ∧ HeadsAlong Eq s t q ∧
      (∀ p', AgreeOff Eq s t p' → p' <+: q) ∧
        (g.Complete s → g.Complete t → AgreeOff Eq s t p → AgreeOff Eq s t q) := by
  induction levels generalizing m p with
  | zero => omega
  | succ levels ih =>
    obtain ⟨-, n, hn⟩ := hpath.exists_get?
    have hbelow : ∀ {j : ℕ} {rest : Place}, AgreeOff Eq s t (p ++ j :: rest) →
        s.headAt p = t.headAt p ∧ s.differingChildren t m p = [j] ∧
          (∃ c, m.child? j = some c) ∧ ∃ n d, t.get? p = some n ∧ n.child? j = some d :=
      fun h => h.differingChildren hdist hplain hs ht hm hdiff
    rw [descend, hn]
    by_cases hhead : s.headAt p = t.headAt p
    -- the loop stops here unless the nodes look the same and just one child differs
    · simp only [hhead, bne_self_eq_false, Bool.false_eq_true, if_false]
      split
      · next i honly =>
        have hone : ∀ j rest, AgreeOff Eq s t (p ++ j :: rest) → j = i := by
          intro j rest h
          obtain ⟨-, hj, -⟩ := hbelow h
          rw [honly] at hj
          exact (List.cons.inj hj).1.symm
        split
        · next c d hc hd =>
          obtain ⟨hroot, hsymbols⟩ :=
            headOver_of_child hdist hplain hs ht hpath hm hn hhead hc hd
          have hchild : s.get? (p ++ [i]) = some c := get?_concat hm hc
          have hdeeper : HeadsAlong Eq s t (p ++ [i]) :=
            (headsAlong_append p [i]).mpr ⟨hpath, m, n, hm, hn, .child hroot hc hd .here⟩
          have hdiffers : ¬ s.alikeAt (p ++ [i]) t (p ++ [i]) = true := by
            rw [← canonicalAt_eq_iff hchild (get?_concat hn hd)]
            have hmem : i ∈ s.differingChildren t m p := honly ▸ List.mem_singleton.mpr rfl
            exact (mem_differingChildren.mp hmem).2
          obtain ⟨q, hq, hheads, hall, hcomplete⟩ := ih hdeeper hchild
            (depth_lt_of_child? hc hlevels) hdiffers (prefix_or_of_agreeOff hsplit hone)
          refine ⟨q, hq, hheads, hall, fun hcs hct h => hcomplete hcs hct ?_⟩
          exact h.step hdist hplain hs ht hcs hct hm hn hroot hsymbols hc hd honly
        · next hnone =>
          refine ⟨p, rfl, hpath, prefix_of_agreeOff hsplit fun j rest h => ?_, fun _ _ h => h⟩
          obtain rfl := hone j rest h
          obtain ⟨-, -, ⟨c, hc⟩, n', d, hn', hd⟩ := hbelow h
          obtain rfl : n = n' := Option.some.inj (hn.symm.trans hn')
          exact hnone c d hc hd
      · next hmany =>
        refine ⟨p, rfl, hpath, prefix_of_agreeOff hsplit fun j rest h => ?_, fun _ _ h => h⟩
        exact hmany j (hbelow h).2.1
    · simp only [bne_iff_ne, ne_eq, hhead, not_false_eq_true, if_true]
      exact ⟨p, rfl, hpath, prefix_of_agreeOff hsplit fun j rest h => hhead (hbelow h).1,
        fun _ _ h => h⟩

/-- The places off which two different trees agree lie above their least common difference, and are
all there is above it if the trees are complete. -/
theorem exists_leastCommonDifference (hdist : g.DistinctSignatures) (hplain : g.PlainNames)
    (hs : g.Derivable names s) (ht : g.Derivable names' t) (hne : ¬ s.Variant t) :
    ∃ q, s.leastCommonDifference t = some q ∧ HeadsAlong Eq s t q ∧
      (∀ p, AgreeOff Eq s t p → p <+: q) ∧
        (g.Complete s → g.Complete t → AgreeOff Eq s t q) := by
  have hroot : s.alikeAt [] t [] = s.alike t := by
    simp [alikeAt, canonicalAt, sameText, alike, canonical, outerNames]
  have halike : ¬ s.alike t = true := by rwa [alike_iff hdist hplain hs ht]
  obtain ⟨q, hq, hheads, hall, hcomplete⟩ := descend_spec hdist hplain hs ht (p := []) .here
    (get?_nil s) (Nat.lt_succ_self s.depth) (by rwa [hroot]) (by simp)
  refine ⟨q, ?_, hheads, hall, fun hcs hct => hcomplete hcs hct .here⟩
  rw [leastCommonDifference, if_neg halike, hq]

/-- There is no least common difference exactly if the trees are variants of each other. -/
theorem leastCommonDifference_eq_none_iff (hdist : g.DistinctSignatures) (hplain : g.PlainNames)
    (hs : g.Derivable names s) (ht : g.Derivable names' t) :
    s.leastCommonDifference t = none ↔ s.Variant t := by
  constructor
  · intro hnone
    by_contra hne
    obtain ⟨q, hq, -⟩ := exists_leastCommonDifference hdist hplain hs ht hne
    rw [hnone] at hq
    cases hq
  · intro hvar
    rw [leastCommonDifference, if_pos ((alike_iff hdist hplain hs ht).mpr hvar)]

/-- An edit at a place off which the trees agree may account for their differences. -/
theorem mayAccount_of_agreeOff (hdist : g.DistinctSignatures) (hplain : g.PlainNames)
    (hs : g.Derivable names s) (ht : g.Derivable names' t) (h : AgreeOff Eq s t p) :
    mayAccount (s.leastCommonDifference t) p = true := by
  by_cases hvar : s.Variant t
  · rw [(leastCommonDifference_eq_none_iff hdist hplain hs ht).mpr hvar]
    rfl
  · obtain ⟨q, hq, -, hall, -⟩ := exists_leastCommonDifference hdist hplain hs ht hvar
    rw [hq]
    exact List.isPrefixOf_iff_prefix.mpr (hall p h)

/-- Complete trees agree off every place at which an edit may account for their differences. -/
theorem agreeOff_of_mayAccount (hdist : g.DistinctSignatures) (hplain : g.PlainNames)
    (hs : g.Derivable names s) (ht : g.Derivable names' t) (hcs : g.Complete s)
    (hct : g.Complete t) (hm : s.get? p = some m)
    (h : mayAccount (s.leastCommonDifference t) p = true) : AgreeOff Eq s t p := by
  by_cases hvar : s.Variant t
  · exact (VariantOver.at_place hvar hm).1
  · obtain ⟨q, hq, -, -, hagree⟩ := exists_leastCommonDifference hdist hplain hs ht hvar
    rw [hq] at h
    obtain ⟨rest, rfl⟩ := List.isPrefixOf_iff_prefix.mp h
    exact ((agreeOff_append p rest).mp (hagree hcs hct)).1

end Descent

section Sites

variable {g : Grammar K} {names names' : NameSupply} {s t : Tree K} {p q : Place}

theorem mem_upTo : p ∈ q.upTo ↔ p <+: q := by
  simp only [Place.upTo, List.mem_map, List.mem_range]
  constructor
  · rintro ⟨n, -, rfl⟩
    exact List.take_prefix n q
  · intro h
    exact ⟨p.length, Nat.lt_succ_of_le h.length_le, (List.prefix_iff_eq_take.mp h).symm⟩

theorem nodup_upTo (q : Place) : q.upTo.Nodup := by
  refine List.Nodup.map_on (fun i hi j hj heq => ?_) List.nodup_range
  have hlen := congrArg List.length heq
  simp only [List.mem_range] at hi hj
  simp only [List.length_take] at hlen
  omega

/-- The sites of an edit are places of the first tree, each once, and all those are among them off
which the trees agree. -/
theorem editSites_spec (hdist : g.DistinctSignatures) (hplain : g.PlainNames)
    (hs : g.Derivable names s) (ht : g.Derivable names' t) : (s.editSites t).Nodup ∧
      ∀ p, p ∈ s.editSites t ↔
        (s.get? p).isSome ∧ mayAccount (s.leastCommonDifference t) p = true := by
  unfold editSites
  by_cases hvar : s.Variant t
  · rw [(leastCommonDifference_eq_none_iff hdist hplain hs ht).mpr hvar]
    refine ⟨nodup_places s, fun p => ?_⟩
    rw [mem_places]
    simp [mayAccount]
  · obtain ⟨q, hq, hheads, -, -⟩ := exists_leastCommonDifference hdist hplain hs ht hvar
    rw [hq]
    refine ⟨nodup_upTo q, fun p => ?_⟩
    simp only [mem_upTo, mayAccount, List.isPrefixOf_iff_prefix]
    constructor
    · intro h
      obtain ⟨rest, rfl⟩ := h
      obtain ⟨⟨m, hm⟩, -⟩ := ((headsAlong_append p rest).mp hheads).1.exists_get?
      exact ⟨by simp [hm], List.prefix_append p rest⟩
    · exact And.right

end Sites

end ScopedGrammar.Tree
