import ScopedGrammar.Proofs.Tree.Printed

/-!
# Copies with fresh names

Where no name is introduced twice and no free variable has the name of a binder, a copy with fresh
names is a variant of the tree. The renaming goes from one argument to the next with the names of
all binders so far; since these are distinct, an argument sees only those of the binders above it.
-/
namespace ScopedGrammar.Tree

variable {K : Type} {r : Renaming} {s : NameSupply} {t c d : Tree K} {as : List (Arg K)}

/-- The binders of a tree have distinct names, and its free variables other ones. -/
structure Apart (t : Tree K) : Prop where
  nodup : t.introducedNames.Nodup
  free : ∀ x ∈ t.freeUses [], x ∉ t.introducedNames

theorem Apart.not_mem_argument (h : t.Apart) (hc : .subtree c ∈ t.args) (hd : .subtree d ∈ t.args)
    {x : String} (hx : x ∈ d.freeUses []) : x ∉ c.introducedNames := by
  intro hxc
  have hsub := sublist_introducedNames_child hc
  by_cases hown : ∃ v, t.introduced? = some v ∧ x = v.name
  · obtain ⟨v, hv, rfl⟩ := hown
    have hnodup := h.nodup.sublist hsub
    rw [hv, List.nodup_append'] at hnodup
    exact hnodup.2.2 (by simp) hxc
  · refine h.free x (mem_freeUses_iff.mpr (.inr ⟨fun v hv heq => hown ⟨v, hv, heq⟩, d, hd, hx⟩)) ?_
    exact hsub.subset (List.mem_append_right _ hxc)

theorem Apart.child (h : t.Apart) (hc : .subtree c ∈ t.args) : c.Apart :=
  ⟨h.nodup.sublist ((List.sublist_append_right _ _).trans (sublist_introducedNames_child hc)),
    fun _ hx => h.not_mem_argument hc hc hx⟩

theorem Apart.at_place {n : Tree K} {p : Place} (h : t.Apart) (hn : t.get? p = some n) :
    n.Apart := by
  induction p generalizing t with
  | nil =>
    obtain rfl : t = n := by simpa using hn
    exact h
  | cons i p ih =>
    obtain ⟨c, hc, hcn⟩ := get?_cons_eq_some.mp hn
    exact ih (h.child (mem_args_of_child? hc)) hcn

/-- A copy of a tree under a renaming: its binders have the names just taken, its free variables
are renamed, and what the tree does not introduce is renamed as before. -/
structure Renewed (r : Renaming) (s : NameSupply) (t : Tree K)
    (copied : (Tree K × Renaming) × NameSupply) : Prop where
  issued_le : s.issued ≤ copied.2.issued
  introducedNames_eq : copied.1.1.introducedNames = s.taken copied.2
  variant : t.VariantOver (fun x y => r.apply x = y) copied.1.1
  keeps : ∀ x, x ∉ t.introducedNames → copied.1.2.apply x = r.apply x

/-- Copies of arguments under a renaming. -/
structure RenewedArgs (r : Renaming) (s : NameSupply) (as : List (Arg K))
    (copied : (List (Arg K) × Renaming) × NameSupply) : Prop where
  issued_le : s.issued ≤ copied.2.issued
  introducedNames_eq : introducedNamesArgs copied.1.1 = s.taken copied.2
  variant : List.Forall₂ (Arg.VariantOver fun x y => r.apply x = y) as copied.1.1
  keeps : ∀ x, x ∉ introducedNamesArgs as → copied.1.2.apply x = r.apply x

theorem renewedArgs_of_uniquify
    (ih : ∀ c, .subtree c ∈ as → ∀ (r : Renaming) (s : NameSupply),
      (∀ x ∈ c.freeUses [], s.Avoids (r.apply x)) → Renewed r s c (c.uniquifyFrom r s))
    (hapart : ∀ c d, .subtree c ∈ as → .subtree d ∈ as →
      ∀ x ∈ d.freeUses [], x ∉ c.introducedNames)
    (hr : ∀ c, .subtree c ∈ as → ∀ x ∈ c.freeUses [], s.Avoids (r.apply x)) :
    RenewedArgs r s as (uniquifyArgs r as s) := by
  induction as generalizing r s with
  | nil => exact ⟨Nat.le_refl _, (NameSupply.taken_self s).symm, .nil, fun x _ => rfl⟩
  | cons a as iha =>
    have hrest {r s} := @iha r s (fun c hc => ih c (List.mem_cons_of_mem a hc)) fun c d hc hd =>
      hapart c d (List.mem_cons_of_mem a hc) (List.mem_cons_of_mem a hd)
    cases a with
    | terminal x =>
      obtain ⟨hissued, hnames, hvar, hkeeps⟩ := hrest fun c hc => hr c (List.mem_cons_of_mem _ hc)
      exact ⟨hissued, hnames, .cons (.terminal x) hvar, hkeeps⟩
    | subtree c =>
      have hfirst := ih c List.mem_cons_self r s (hr c List.mem_cons_self)
      have hsplit : uniquifyArgs r (.subtree c :: as) s =
          let x := c.uniquifyFrom r s
          let y := uniquifyArgs x.1.2 as x.2
          ((.subtree x.1.1 :: y.1.1, y.1.2), y.2) := rfl
      rw [hsplit]
      generalize c.uniquifyFrom r s = first at hfirst
      obtain ⟨⟨c', r₁⟩, s₁⟩ := first
      have hissued := hfirst.issued_le
      -- The names that the first argument adds are not free in the others.
      have hsame : ∀ d, .subtree d ∈ as → ∀ x ∈ d.freeUses [], r₁.apply x = r.apply x :=
        fun d hd x hx => hfirst.keeps x
          (hapart c d List.mem_cons_self (List.mem_cons_of_mem _ hd) x hx)
      have htail := hrest fun d hd x hx =>
        hsame d hd x hx ▸ (hr d (List.mem_cons_of_mem _ hd) x hx).mono hissued
      refine ⟨Nat.le_trans hissued htail.issued_le, ?_, .cons (.subtree hfirst.variant) ?_, ?_⟩
      · rw [← NameSupply.taken_append hissued htail.issued_le, ← hfirst.introducedNames_eq,
          ← htail.introducedNames_eq]
        rfl
      · refine forall₂_imp_of_mem htail.variant fun b hb b' _ hbb => ?_
        cases hbb with
        | terminal x => exact .terminal x
        | subtree hd => exact .subtree (hd.imp fun x hx y _ hxy => (hsame _ hb x hx).symm.trans hxy)
      · intro x hx
        rw [introducedNamesArgs, List.mem_append, not_or] at hx
        exact (htail.keeps x hx.2).trans (hfirst.keeps x hx.1)

theorem uniquifyFrom_node (r : Renaming) (nt name : String) (kind : NodeKind K)
    (args? : Option (List (Arg K))) (s : NameSupply) :
    (node nt name kind args?).uniquifyFrom r s =
      let x := uniquifyFrom.refresh r name kind s
      let y := uniquifyArgs x.1.2.2 (args?.getD []) x.2
      ((.node nt x.1.1 x.1.2.1 (args?.map fun _ => y.1.1), y.1.2), y.2) := by
  cases args? <;> rfl

/-- What renaming one node does, where some names are free in its arguments: it takes a name for a
binder, and renames as before what the node does not introduce. -/
structure Refreshed (r : Renaming) (s : NameSupply) (free : String → Prop) (name : String)
    (kind : NodeKind K) (copied : (String × NodeKind K × Renaming) × NameSupply) : Prop where
  issued_le : s.issued ≤ copied.2.issued
  introduced_eq : (copied.1.2.1.introduced?.map (·.name)).toList = s.taken copied.2
  variant : kind.VariantOver (fun x y => r.apply x = y) name copied.1.1 copied.1.2.1
  avoids : ∀ x, free x → copied.2.Avoids (copied.1.2.2.apply x)
  below : ∀ x, free x →
    Matching.below (fun x y => r.apply x = y) kind copied.1.2.1 x (copied.1.2.2.apply x)
  keeps : ∀ x, (∀ v, kind.introduced? = some v → x ≠ v.name) → copied.1.2.2.apply x = r.apply x

theorem refreshed_of_refresh {free : String → Prop} (name : String) (kind : NodeKind K)
    (hr : ∀ x, free x → (∀ v, kind.introduced? = some v → x ≠ v.name) → s.Avoids (r.apply x)) :
    Refreshed r s free name kind (uniquifyFrom.refresh r name kind s) := by
  cases kind with
  | plain =>
    exact ⟨Nat.le_refl _, (NameSupply.taken_self s).symm, rfl,
      fun x hx => hr x hx nofun, fun x _ => rfl, fun x _ => rfl⟩
  | variableUse =>
    exact ⟨Nat.le_refl _, (NameSupply.taken_self s).symm, rfl,
      fun x hx => hr x hx nofun, fun x _ => rfl, fun x _ => rfl⟩
  | binder v =>
    have hother : ∀ x, free x → x ≠ v.name → s.Avoids (r.apply x) := fun x hx hne =>
      hr x hx fun w hw => Option.some.inj hw ▸ hne
    refine ⟨Nat.le_succ _, ?_, ⟨rfl, rfl⟩, fun x hx => ?_, fun x hx => ?_, fun x hx => ?_⟩
    · change [s.next.1] = s.taken s.next.2
      rw [NameSupply.taken_next (Nat.le_refl _), NameSupply.taken_self]
    · change s.next.2.Avoids (Renaming.apply ((v.name, s.next.1) :: r) x)
      rw [apply_cons]
      by_cases hxv : x = v.name
      · rw [if_pos hxv]
        exact s.issued_next.avoids
      · rw [if_neg hxv]
        exact (hother x hx hxv).mono (Nat.le_succ _)
    · change Matching.bind v.name s.next.1 (fun x y => r.apply x = y) x
        (Renaming.apply ((v.name, s.next.1) :: r) x)
      rw [apply_cons]
      by_cases hxv : x = v.name
      · rw [if_pos hxv]
        exact .inl ⟨hxv, rfl⟩
      · rw [if_neg hxv]
        refine .inr ⟨hxv, fun heq => ?_, rfl⟩
        exact s.not_avoids_next (heq ▸ hother x hx hxv)
    · change Renaming.apply ((v.name, s.next.1) :: r) x = _
      rw [apply_cons, if_neg (hx v rfl)]

/-- A copy with fresh names is what it should be, if the supply does not issue the names that stand
for the free variables. -/
theorem renewed_of_uniquify (ht : t.Apart) (hr : ∀ x ∈ t.freeUses [], s.Avoids (r.apply x)) :
    Renewed r s t (t.uniquifyFrom r s) := by
  induction t using induction generalizing r s with
  | node nt name kind args? ih =>
    have hroot : Refreshed r s (fun x => ∃ c, .subtree c ∈ args?.getD [] ∧ x ∈ c.freeUses []) name
        kind (uniquifyFrom.refresh r name kind s) :=
      refreshed_of_refresh name kind fun x ⟨c, hc, hx⟩ hown =>
        hr x (mem_freeUses_iff.mpr (.inr ⟨by simpa using hown, c, hc, hx⟩))
    rw [uniquifyFrom_node]
    -- of the renamed root only what was just said matters, not how its name was found
    generalize uniquifyFrom.refresh r name kind s = root at hroot
    obtain ⟨⟨name', kind', r₁⟩, s₁⟩ := root
    have hargs := renewedArgs_of_uniquify (fun c hc r s => ih c hc (ht.child hc))
      (fun c d hc hd x hx => ht.not_mem_argument hc hd hx)
      fun c hc x hx => hroot.avoids x ⟨c, hc, hx⟩
    dsimp only
    generalize uniquifyArgs r₁ (args?.getD []) s₁ = filled at hargs
    obtain ⟨⟨as, r₂⟩, s₂⟩ := filled
    refine ⟨Nat.le_trans hroot.issued_le hargs.issued_le, ?_, ?_, fun x hx => ?_⟩
    · have has : introducedNamesArgs ((args?.map fun _ => as).getD []) = s₁.taken s₂ := by
        rw [← hargs.introducedNames_eq]
        cases args? with
        | none => rw [List.forall₂_nil_left_iff.mp hargs.variant]; rfl
        | some bs => rfl
      rw [introducedNames_node, hroot.introduced_eq, has,
        NameSupply.taken_append hroot.issued_le hargs.issued_le]
    · have hlist : (args?.map fun _ => as).getD [] = as := by
        cases args? with
        | none => exact (List.forall₂_nil_left_iff.mp hargs.variant).symm
        | some bs => rfl
      refine variantOver_iff.mpr ⟨⟨rfl, hroot.variant, ?_⟩, ?_⟩
      · cases args? <;> rfl
      · rw [args_node, args_node, hlist]
        refine forall₂_imp_of_mem hargs.variant fun a ha b _ hab => ?_
        cases hab with
        | terminal x => exact .terminal x
        | @subtree c _ hc =>
          exact .subtree (hc.imp fun x hx y _ hxy => hxy ▸ hroot.below x ⟨c, ha, hx⟩)
    · rw [introducedNames_node, List.mem_append, not_or] at hx
      refine (hargs.keeps x hx.2).trans (hroot.keeps x fun v hv heq => hx.1 ?_)
      simp [hv, heq]

theorem Apart.uniquify (ht : t.Apart) (hs : ∀ x ∈ t.freeUses [], s.Avoids x) :
    t.Variant (t.uniquify s).1 ∧ s.issued ≤ (t.uniquify s).2.issued ∧
      (t.uniquify s).1.introducedNames = s.taken (t.uniquify s).2 := by
  have hcopy := renewed_of_uniquify (r := []) ht hs
  exact ⟨hcopy.variant, hcopy.issued_le, hcopy.introducedNames_eq⟩

end ScopedGrammar.Tree
