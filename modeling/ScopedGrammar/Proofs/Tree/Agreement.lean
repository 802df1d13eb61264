import ScopedGrammar.Proofs.Grammar.Alignment

/-!
# Agreement of two trees off a place

An edit at a place turns one tree into a variant of another if the trees agree off the place and
what is put there corresponds to what the other tree has there. The matching of names at the place
is built up by the binders on the way to it, and it aligns the scopes of the two places.
-/
namespace ScopedGrammar

variable {K : Type}

/-- The matching that two trees build up on the way to a place. -/
def Matching.along (M : Matching) : Tree K → Tree K → Place → Matching
  | _, _, [] => M
  | s, t, i :: p =>
      match s.child? i, t.child? i with
      | some c, some d => Matching.along (M.below s.kind t.kind) c d p
      | _, _ => M

namespace Tree

/-- The trees correspond to each other everywhere but at a place and below it. -/
inductive AgreeOff : Matching → Tree K → Tree K → Place → Prop
  | here {M : Matching} {s t : Tree K} : AgreeOff M s t []
  | child {M : Matching} {s t c d : Tree K} {i : ℕ} {p : Place} (head : HeadOver M s t)
      (symbols : s.args.map Arg.symbol = t.args.map Arg.symbol) (left : s.child? i = some c)
      (right : t.child? i = some d)
      (others : ∀ j, j ≠ i →
        Option.Rel (Arg.VariantOver (M.below s.kind t.kind)) s.args[j]? t.args[j]?)
      (rest : AgreeOff (M.below s.kind t.kind) c d p) : AgreeOff M s t (i :: p)

/-- The nodes on the way to a place correspond to each other. -/
inductive HeadsAlong : Matching → Tree K → Tree K → Place → Prop
  | here {M : Matching} {s t : Tree K} : HeadsAlong M s t []
  | child {M : Matching} {s t c d : Tree K} {i : ℕ} {p : Place} (head : HeadOver M s t)
      (left : s.child? i = some c) (right : t.child? i = some d)
      (rest : HeadsAlong (M.below s.kind t.kind) c d p) : HeadsAlong M s t (i :: p)

variable {M : Matching} {s s' t c d m n r : Tree K} {p q : Place} {i : ℕ}

theorem along_cons (hc : s.child? i = some c) (hd : t.child? i = some d) :
    M.along s t (i :: p) = Matching.along (M.below s.kind t.kind) c d p := by
  rw [Matching.along, hc, hd]

theorem withArgs_of_child? (hc : s.child? i = some c) (as : List (Arg K)) :
    (s.withArgs as).args = as ∧ (s.withArgs as).kind = s.kind ∧ (s.withArgs as).name = s.name ∧
      (s.withArgs as).nonterminal = s.nonterminal ∧
        (s.withArgs as).args?.isSome = s.args?.isSome := by
  have hi := child?_eq_some.mp hc
  obtain ⟨nt, name, kind, args?⟩ := s
  cases args? with
  | none => simp at hi
  | some bs => exact ⟨rfl, rfl, rfl, rfl, rfl⟩

theorem nonterminal_replace? (hm : s.get? p = some m) (hr : r.nonterminal = m.nonterminal)
    (hs' : s.replace? p r = some s') : s'.nonterminal = s.nonterminal := by
  cases p with
  | nil =>
    obtain rfl : s = m := by simpa using hm
    obtain rfl : r = s' := by simpa using hs'
    exact hr
  | cons i p =>
    obtain ⟨c, hc, hrep⟩ := Option.bind_eq_some_iff.mp (replace?_cons s r i p ▸ hs')
    obtain ⟨c', -, rfl⟩ := Option.map_eq_some_iff.mp hrep
    exact (withArgs_of_child? hc _).2.2.2.1

theorem map_set_args {α : Type} {c' : Tree K} {f : Arg K → α} (hc : s.child? i = some c)
    (hf : f (.subtree c') = f (.subtree c)) :
    (s.args.set i (.subtree c')).map f = s.args.map f := by
  obtain ⟨hlt, hget⟩ := List.getElem?_eq_some_iff.mp (child?_eq_some.mp hc)
  have hi : i < (s.args.map f).length := by simpa using hlt
  have hsame : f (.subtree c') = (s.args.map f)[i] := by
    rw [List.getElem_map, hget]
    exact hf
  rw [List.map_set, hsame, List.set_getElem_self]

theorem map_symbol_set {c' : Tree K} (hc : s.child? i = some c)
    (hnt : c'.nonterminal = c.nonterminal) :
    (s.args.set i (.subtree c')).map Arg.symbol = s.args.map Arg.symbol :=
  map_set_args hc hnt

theorem AgreeOff.headsAlong (h : AgreeOff M s t p) : HeadsAlong M s t p := by
  induction h with
  | here => exact .here
  | child hhead _ hc hd _ _ ih => exact .child hhead hc hd ih

theorem HeadsAlong.exists_get? (h : HeadsAlong M s t p) :
    (∃ m, s.get? p = some m) ∧ ∃ n, t.get? p = some n := by
  induction h with
  | here => exact ⟨⟨_, get?_nil _⟩, _, get?_nil _⟩
  | child _ hc hd _ ih =>
    rw [get?_cons, get?_cons, hc, hd]
    exact ih

/-- A tree with an exchanged subtree corresponds to another tree exactly if the trees agree off the
place and the subtrees correspond there. -/
theorem variantOver_replace?_iff (hm : s.get? p = some m) (hr : r.nonterminal = m.nonterminal)
    (hs' : s.replace? p r = some s') : s'.VariantOver M t ↔
      AgreeOff M s t p ∧ ∃ n, t.get? p = some n ∧ r.VariantOver (M.along s t p) n := by
  induction p generalizing M s s' t with
  | nil =>
    obtain rfl : r = s' := by simpa using hs'
    simp [AgreeOff.here, Matching.along]
  | cons i p ih =>
    obtain ⟨c, hc, hcm⟩ := get?_cons_eq_some.mp hm
    rw [replace?_cons, hc, Option.bind_some] at hs'
    obtain ⟨c', hc', rfl⟩ := Option.map_eq_some_iff.mp hs'
    obtain ⟨hlt, hget⟩ := List.getElem?_eq_some_iff.mp (child?_eq_some.mp hc)
    obtain ⟨hargs, hkind, hname, hnt, hsome⟩ := withArgs_of_child? hc (s.args.set i (.subtree c'))
    have hsymbols := map_symbol_set hc (nonterminal_replace? hcm hr hc')
    -- both sides ask the same of the arguments beside the way, so only the child on it is left
    rw [variantOver_iff, hargs, hkind, forall₂_set_iff hlt]
    constructor
    · rintro ⟨hhead, hothers, b, hb, hcb⟩
      have hroot : HeadOver M s t := by
        refine ⟨hnt ▸ hhead.nonterminal_eq, ?_, hsome ▸ hhead.isSome_eq⟩
        have := hhead.kind
        rwa [hkind, hname] at this
      have hall : List.Forall₂ (Arg.VariantOver (M.below s.kind t.kind))
          (s.args.set i (.subtree c')) t.args := (forall₂_set_iff hlt).mpr ⟨hothers, b, hb, hcb⟩
      have hsym := symbols_eq_of_forall₂ hall
      rw [hsymbols] at hsym
      cases hcb with
      | @subtree _ d hcd =>
        have hd : t.child? i = some d := child?_eq_some.mpr hb
        obtain ⟨hagree, n, hn, hrn⟩ := (ih hcm hc').mp hcd
        rw [along_cons hc hd, get?_cons, hd]
        exact ⟨.child hroot hsym hc hd hothers hagree, n, hn, hrn⟩
    · rintro ⟨hagree, n, hn, hrn⟩
      cases hagree with
      | @child _ _ _ c₁ d _ _ hhead hsym hc₁ hd hothers hrest =>
        obtain rfl : c = c₁ := Option.some.inj (hc.symm.trans hc₁)
        rw [along_cons hc hd] at hrn
        rw [get?_cons, hd] at hn
        have hcd := (ih hcm hc').mpr ⟨hrest, n, hn, hrn⟩
        refine ⟨⟨hnt.trans hhead.nonterminal_eq, ?_, hsome.trans hhead.isSome_eq⟩, hothers,
          .subtree d, child?_eq_some.mp hd, .subtree hcd⟩
        rw [hkind, hname]
        exact hhead.kind

theorem AgreeOff.symm (h : AgreeOff M s t p) : AgreeOff M.flip t s p := by
  induction h with
  | here => exact .here
  | @child M s t c d i p hhead hsym hc hd hothers _ ih =>
    rw [Matching.below_flip] at ih
    refine .child hhead.symm hsym.symm hd hc (fun j hj => ?_) ih
    rw [← Matching.below_flip]
    have hrel := hothers j hj
    revert hrel
    generalize s.args[j]? = a?
    generalize t.args[j]? = b?
    rintro (⟨⟨hcd⟩ | z⟩ | _)
    · exact .some (.subtree hcd.symm)
    · exact .some (.terminal z)
    · exact .none

theorem VariantOver.at_place (h : s.VariantOver M t) (hm : s.get? p = some m) :
    AgreeOff M s t p ∧ ∃ n, t.get? p = some n ∧ m.VariantOver (M.along s t p) n :=
  (variantOver_replace?_iff hm rfl (replace?_self hm)).mp h

theorem agreeOff_append (p q : Place) : AgreeOff M s t (p ++ q) ↔ AgreeOff M s t p ∧
    ∃ m n, s.get? p = some m ∧ t.get? p = some n ∧ AgreeOff (M.along s t p) m n q := by
  induction p generalizing M s t with
  | nil => simp [AgreeOff.here, Matching.along]
  | cons i p ih =>
    constructor
    · intro h
      cases h with
      | child hhead hsym hc hd hothers hrest =>
        obtain ⟨hp, m, n, hm, hn, hq⟩ := ih.mp hrest
        refine ⟨.child hhead hsym hc hd hothers hp, m, n, get?_cons_eq_some.mpr ⟨_, hc, hm⟩,
          get?_cons_eq_some.mpr ⟨_, hd, hn⟩, ?_⟩
        rw [along_cons hc hd]
        exact hq
    · rintro ⟨hp, m, n, hm, hn, hq⟩
      cases hp with
      | child hhead hsym hc hd hothers hrest =>
        rw [along_cons hc hd] at hq
        rw [get?_cons, hc] at hm
        rw [get?_cons, hd] at hn
        exact .child hhead hsym hc hd hothers (ih.mpr ⟨hrest, m, n, hm, hn, hq⟩)

theorem headsAlong_append (p q : Place) : HeadsAlong M s t (p ++ q) ↔ HeadsAlong M s t p ∧
    ∃ m n, s.get? p = some m ∧ t.get? p = some n ∧ HeadsAlong (M.along s t p) m n q := by
  induction p generalizing M s t with
  | nil => simp [HeadsAlong.here, Matching.along]
  | cons i p ih =>
    constructor
    · intro h
      cases h with
      | child hhead hc hd hrest =>
        obtain ⟨hp, m, n, hm, hn, hq⟩ := ih.mp hrest
        refine ⟨.child hhead hc hd hp, m, n, get?_cons_eq_some.mpr ⟨_, hc, hm⟩,
          get?_cons_eq_some.mpr ⟨_, hd, hn⟩, ?_⟩
        rw [along_cons hc hd]
        exact hq
    · rintro ⟨hp, m, n, hm, hn, hq⟩
      cases hp with
      | child hhead hc hd hrest =>
        rw [along_cons hc hd] at hq
        rw [get?_cons, hc] at hm
        rw [get?_cons, hd] at hn
        exact .child hhead hc hd (ih.mpr ⟨hrest, m, n, hm, hn, hq⟩)

theorem along_append (hm : s.get? p = some m) (hn : t.get? p = some n) (q : Place) :
    M.along s t (p ++ q) = (M.along s t p).along m n q := by
  induction p generalizing M s t with
  | nil =>
    obtain rfl : s = m := by simpa using hm
    obtain rfl : t = n := by simpa using hn
    rfl
  | cons i p ih =>
    obtain ⟨c, hc, hcm⟩ := get?_cons_eq_some.mp hm
    obtain ⟨d, hd, hdn⟩ := get?_cons_eq_some.mp hn
    rw [List.cons_append, along_cons hc hd, along_cons hc hd, ih hcm hdn]

theorem HeadsAlong.aligned {g : Grammar K} {names names' : NameSupply} {S T : Scope K}
    (h : HeadsAlong M s t p) (hs : g.Derived names S s) (ht : g.Derived names' T t)
    (hal : Scope.Aligned M S T) :
    Scope.Aligned (M.along s t p) (S ++ s.variablesAbove p) (T ++ t.variablesAbove p) := by
  induction h generalizing S T with
  | here => simpa [Matching.along] using hal
  | @child M s t c d i p hhead hc hd _ ih =>
    have hrest := ih (hs.child (mem_args_of_child? hc))
      (ht.child (mem_args_of_child? hd)) (hs.aligned_below ht hal hhead)
    rwa [Scope.below_kind, Scope.below_kind, List.append_assoc, List.append_assoc,
      ← variablesAbove_cons hc, ← variablesAbove_cons hd, ← along_cons hc hd] at hrest

end Tree

end ScopedGrammar
